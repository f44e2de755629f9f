import Sylar.Lib.Fairness
import Sylar.Thread.Start

/-!
# Waits and starts that end

What a semaphore and `start()` come to if every thread that can go on does so sooner or later. A thread that `_cv` lets
go again and again without a notification keeps nobody from going on.

- `Semaphore.unit_taken`: a unit that is there while somebody waits is taken;
- `Semaphore.waits_end_iff`: where no more calls are made, all waits end if and only if as many units come as there were
  calls;
- `Start.start_returns`: `start()` returns, and each thread it has created invokes its callback.
-/

namespace Sylar

open Trans

namespace Semaphore

variable {T : Type} [DecidableEq T] {c : Int} {s : State T}

/-! ## The semaphore -/

/-- A thread that has been woken gets `_mutex` and tests the loop condition. -/
def tests (t : T) : System.Demand (State T) (Act T) where
  ready s := s.pc t = .woken
  serves _ a := a = .retest t

/-- Inside `wait()`. -/
def Pc.isInside : Pc → Bool
  | .out => false
  | _ => true

section Calls

variable [Fintype T]

/-- The threads inside `wait()`. -/
def State.inside (s : State T) : Nat := Counting.count Pc.isInside s.pc

/-- The calls of `wait()` so far. -/
def State.calls (s : State T) : Nat := s.waits + s.inside

theorem inside_update (s : State T) (t : T) (p : Pc) :
    Counting.count Pc.isInside (Function.update s.pc t p) + (s.pc t).isInside.toNat = s.inside + p.isInside.toNat :=
  Counting.count_update Pc.isInside s.pc t p

/-- Only `wait` is a new call, no call is undone, and no completed one. -/
theorem calls_next {a : Act T} (hg : guard s a) (ha : ∀ t, a ≠ .wait t) :
    (next s a).calls = s.calls ∧ s.waits ≤ (next s a).waits ∧ s.signals ≤ (next s a).signals := by
  cases a with
  | wait t => exact absurd rfl (ha t)
  | retest t =>
    have hpc : s.pc t = .woken := hg
    simp only [next, State.test, State.calls]
    split
    · have hinside := inside_update s t .blocked
      rw [hpc] at hinside
      have hsame : Counting.count Pc.isInside (Function.update s.pc t .blocked) = s.inside :=
        Nat.add_right_cancel hinside
      exact ⟨congrArg (s.waits + ·) hsame, Nat.le_refl _, Nat.le_refl _⟩
    · have hinside := inside_update s t .out
      rw [hpc] at hinside
      change Counting.count Pc.isInside (Function.update s.pc t .out) + 1 = s.inside + 0 at hinside
      refine ⟨?_, Nat.le_succ _, Nat.le_refl _⟩
      change s.waits + 1 + Counting.count Pc.isInside (Function.update s.pc t .out) = s.waits + s.inside
      omega
  | spurious t =>
    have hpc : s.pc t = .blocked := hg
    have hinside := inside_update s t .woken
    rw [hpc] at hinside
    have hsame : Counting.count Pc.isInside (Function.update s.pc t .woken) = s.inside := Nat.add_right_cancel hinside
    exact ⟨congrArg (s.waits + ·) hsame, Nat.le_refl _, Nat.le_refl _⟩
  | signal t notified =>
    refine ⟨?_, Nat.le_refl _, Nat.le_succ _⟩
    cases notified with
    | none => rfl
    | some u =>
      have hpc : s.pc u = .blocked := hg.2
      have hinside := inside_update s u .woken
      rw [hpc] at hinside
      have hsame : Counting.count Pc.isInside (Function.update s.pc u .woken) = s.inside :=
        Nat.add_right_cancel hinside
      exact congrArg (s.waits + ·) hsame

/-- With no new call the calls stay, and what has been completed stays completed. -/
theorem calls_after {P : State T → Act T → Prop} {π : (system T c).Path P} {n m : Nat} (hnm : n ≤ m)
    (hcalls : ∀ k ≥ n, ∀ t, π.act k ≠ some (.wait t)) : (π.state m).calls = (π.state n).calls ∧
      (π.state n).waits ≤ (π.state m).waits ∧ (π.state n).signals ≤ (π.state m).signals := by
  induction m, hnm using Nat.le_induction with
  | base => exact ⟨rfl, Nat.le_refl _, Nat.le_refl _⟩
  | succ m hm ih =>
    cases ha : π.act m with
    | none =>
      rw [π.rest m ha]
      exact ih
    | some a =>
      obtain ⟨he, -, hn⟩ := π.step m a ha
      have hone := calls_next he fun t ht => hcalls m hm t (by rw [ha, ht])
      rw [hn]
      exact ⟨hone.1.trans ih.1, ih.2.1.trans hone.2.1, ih.2.2.trans hone.2.2⟩

omit [Fintype T] in
/-- One pass through the loop takes a unit if there is one. -/
theorem waits_test (hcount : s.count ≠ 0) (t : T) : (s.test t).waits = s.waits + 1 := by
  unfold State.test
  rw [if_neg hcount]

/-- **A unit is taken** if a thread that has been woken tests the condition sooner or later. -/
theorem unit_taken (h₀ : 0 ≤ c) (h₁ : c < 2 ^ 31) {π : (system T c).Path (InRange c)} {t : T} (hfair : π.Just (tests t))
    (k : Nat) : π.Leads (fun s => s.waits = k ∧ 0 < s.count ∧ s.pc t = .woken) (fun s => k < s.waits) := by
  refine System.Path.leads_of_rank hfair (fun _ => 0) (fun n hn => Or.inl hn.2.2) ?_
  rintro s a hr ⟨rfl, hcount, hpc⟩ hg hp
  have hinv := inv_reach h₀ h₁ hr
  have htaken : ∀ u, s.waits < (s.test u).waits := by
    intro u
    rw [waits_test (by omega) u]
    exact Nat.lt_succ_self _
  cases a with
  | wait u | retest u => exact Or.inl (htaken u)
  | spurious u =>
    have hne : t ≠ u := by
      rintro rfl
      cases hpc.symm.trans hg
    refine Or.inr ⟨⟨rfl, hcount, ?_⟩, Or.inr ⟨rfl, ?_⟩⟩
    · exact (Function.update_of_ne hne _ _).trans hpc
    · simp [tests]
  | signal u notified =>
    have hp : c + s.signals + 1 < 2 ^ 31 := hp
    have hc := hinv.count
    have hint : int (s.count + 1) = s.count + 1 := int_eq (by omega) (by omega)
    refine Or.inr ⟨⟨rfl, ?_, ?_⟩, Or.inr ⟨rfl, ?_⟩⟩
    · show 0 < int (s.count + 1)
      omega
    · cases notified with
      | none => exact hpc
      | some v =>
        have hne : t ≠ v := by
          rintro rfl
          cases hpc.symm.trans hg.2
        exact (Function.update_of_ne hne _ _).trans hpc
    · simp [tests]

omit [DecidableEq T] in
/-- Somebody inside `wait()` has been woken if there is a unit. -/
theorem exists_woken (h : Inv c s) (hcount : 0 < s.count) (hinside : 0 < s.inside) : ∃ t, s.pc t = .woken := by
  by_contra hno
  have hblocked : ∃ t, s.pc t = .blocked := by
    obtain ⟨t, ht⟩ := Counting.exists_of_count_pos hinside
    refine ⟨t, ?_⟩
    cases hpc : s.pc t with
    | blocked => rfl
    | woken => exact absurd ⟨t, hpc⟩ hno
    | out => simp [hpc, Pc.isInside] at ht
  have hcovered := h.covered hblocked
  obtain ⟨t, ht⟩ := Counting.exists_of_count_pos (p := Pc.isWoken) (g := s.pc) (show 0 < s.woken by omega)
  refine hno ⟨t, ?_⟩
  cases hpc : s.pc t with
  | woken => rfl
  | blocked | out => simp [hpc, Pc.isWoken] at ht

/-- **All waits end if and only if there are units for them.** In a fair execution in which `wait()` is called no more
from some moment on, everybody comes to be outside for good exactly if sooner or later there have been as many units,
initial ones and signals, as calls. -/
theorem waits_end_iff (h₀ : 0 ≤ c) (h₁ : c < 2 ^ 31) {π : (system T c).Path (InRange c)} (hfair : ∀ t, π.Just (tests t))
    {n : Nat} (hcalls : ∀ k ≥ n, ∀ t, π.act k ≠ some (.wait t)) :
    (∃ m ≥ n, ∀ k ≥ m, ∀ t, (π.state k).pc t = .out) ↔
      ∃ m ≥ n, ((π.state m).calls : Int) ≤ c + (π.state m).signals := by
  have hinv : ∀ m, Inv c (π.state m) := fun m => inv_reach h₀ h₁ (π.reach m)
  constructor
  · rintro ⟨m, hm, hout⟩
    refine ⟨m, hm, ?_⟩
    have hzero : (π.state m).inside = 0 := by
      by_contra hpos
      obtain ⟨t, ht⟩ := Counting.exists_of_count_pos (p := Pc.isInside) (g := (π.state m).pc) (Nat.pos_of_ne_zero hpos)
      rw [hout m (Nat.le_refl m) t] at ht
      cases ht
    have hcount := (hinv m).count
    have hnonneg := (hinv m).nonneg
    unfold State.calls
    omega
  · rintro ⟨m₀, hm₀, hunits⟩
    -- one wait after the other
    have hall : ∀ j, ∀ m ≥ m₀, (π.state m).inside = j → ∃ m' ≥ m, (π.state m').inside = 0 := by
      intro j
      induction j using Nat.strongRecOn with
      | ind j ih =>
        intro m hm hj
        rcases Nat.eq_zero_or_pos j with rfl | hpos
        · exact ⟨m, Nat.le_refl m, hj⟩
        · have hsince := calls_after hm fun k hk => hcalls k (hm₀.trans hk)
          have hcount := (hinv m).count
          have hunit : 0 < (π.state m).count := by
            unfold State.calls at hunits hsince
            omega
          obtain ⟨t, ht⟩ := exists_woken (hinv m) hunit (by omega)
          obtain ⟨m', hm', htaken⟩ := unit_taken h₀ h₁ (hfair t) _ m ⟨rfl, hunit, ht⟩
          have hsince' := calls_after hm' fun k hk => hcalls k ((hm₀.trans hm).trans hk)
          have hless : (π.state m').inside < j := by
            unfold State.calls at hsince'
            omega
          obtain ⟨m'', hm'', hzero⟩ := ih _ hless m' (hm.trans hm') rfl
          exact ⟨m'', hm'.trans hm'', hzero⟩
    obtain ⟨m, hm, hzero⟩ := hall _ m₀ (Nat.le_refl m₀) rfl
    refine ⟨m, hm₀.trans hm, fun k hk t => ?_⟩
    have hsince := calls_after hk fun j hj => hcalls j ((hm₀.trans hm).trans hj)
    have hnone : (π.state k).inside = 0 := by
      unfold State.calls at hsince
      omega
    by_contra hpc
    have hpos : 0 < (π.state k).inside := by
      refine Counting.count_pos (i := t) ?_
      cases h : (π.state k).pc t with
      | out => exact absurd h hpc
      | blocked | woken => rfl
    omega

end Calls

/-- Threads `a` and `b` block, `b` is let go for nothing, and both get a unit in the end. -/
def endingRun (a b d e : Fin 4) : List (Act (Fin 4)) :=
  wokenRun a b d ++ [.retest a, .retest b, .signal e (some b), .retest b]

theorem waits_end_four : ∃ π : (system (Fin 4) 0).Path (InRange 0), (π.state 2).pc 0 = .blocked ∧
    ∃ m ≥ 8, ∀ k ≥ m, ∀ t, (π.state k).pc t = .out := by
  have h : (System.exec (system (Fin 4) 0) (InRange 0) (initial _ 0) (endingRun 0 1 2 3)).isSome = true := by
    decide
  have hend : ∀ t, ((System.exec (system (Fin 4) 0) (InRange 0) (initial _ 0) (endingRun 0 1 2 3)).get h).pc t =
      .out := by
    decide +revert
  have hunits : ((((System.exec (system (Fin 4) 0) (InRange 0) (initial _ 0)
      (endingRun 0 1 2 3)).get h).calls : Nat) : Int) ≤ 0 +
        ((System.exec (system (Fin 4) 0) (InRange 0) (initial _ 0) (endingRun 0 1 2 3)).get h).signals := by
    decide +revert
  refine ⟨(System.steps_exec h).path rfl, by decide +revert,
    (waits_end_iff (by decide) (by decide) ?_ (n := 8) ?_).2 ⟨8, Nat.le_refl 8, ?_⟩⟩
  · exact fun t => System.Steps.just_of_end rfl _ fun hready => by cases (hend t).symm.trans hready
  · intro k hk t ht
    have hnone : (endingRun 0 1 2 3)[k]? = none := List.getElem?_eq_none_iff.2 hk
    cases hnone.symm.trans ht
  · rw [System.Steps.path_end rfl _ (show (endingRun 0 1 2 3).length ≤ 8 by decide)]
    exact hunits

end Semaphore

/-! ## Starting the pool -/

namespace Start

variable {C : Type} {cfg : Config} {cb : C} {s : State C}

/-- The steps of the thread in `start()`. Nobody is obliged to call it, nor `_cv` to let it go. -/
def Act.own : Act → Bool
  | .acquire | .check | .create _ | .push _ | .unlock => true
  | .wait _ (.wait _) | .wait _ (.retest _) => true
  | _ => false

/-- The thread in `start()` goes on if `m_mutex` is free and `_cv` has let it go. -/
def starter : System.Demand (State C) Act where
  ready s := s.start ≠ .out ∧ s.start ≠ .done ∧ (s.start = .lock → s.mMutex = none) ∧
    ∀ i, s.start = .wait i → (s.thread i).semaphore.pc .parent ≠ .blocked
  serves _ a := a.own = true

/-- A child goes on up to its callback. -/
def child (i : Nat) : System.Demand (State C) Act where
  ready s := 0 < (s.thread i).pc.left
  serves _ a := a.child = some i

namespace StartPc

/-- What comes next in `start()`. -/
def after (cfg : Config) : StartPc → StartPc
  | .out => .lock
  | .lock => .check
  | .check => loop cfg 0
  | .create i => .wait i
  | .wait i => .push i
  | .push i => loop cfg (i + 1)
  | .unlock | .done => .done

/-- How much of `start()` is left, of a loop of `n` passes. -/
def left (n : Nat) : StartPc → Nat
  | .out => 3 * n + 4
  | .lock => 3 * n + 3
  | .check => 3 * n + 2
  | .create i => 3 * (n - i) + 1
  | .wait i => 3 * (n - i)
  | .push i => 3 * (n - i) - 1
  | .unlock => 1
  | .done => 0

end StartPc

theorem loop_left (cfg : Config) (i : Nat) : (loop cfg i).left cfg.threadCnt ≤ 3 * (cfg.threadCnt - i) + 1 := by
  unfold loop
  split_ifs <;> simp [StartPc.left]

theorem loop_ne_out (cfg : Config) (i : Nat) : loop cfg i ≠ .out := by
  unfold loop
  split_ifs <;> simp

/-- `start()` comes nearer to its end. -/
theorem after_left (h : Inv cfg cb s) (hout : s.start ≠ .out) (hdone : s.start ≠ .done) :
    (s.start.after cfg).left cfg.threadCnt < s.start.left cfg.threadCnt ∧ s.start.after cfg ≠ .out := by
  have hcurrent := h.current
  cases hpc : s.start with
  | out => exact absurd hpc hout
  | done => exact absurd hpc hdone
  | lock => exact ⟨Nat.lt_succ_self _, by simp [StartPc.after]⟩
  | check =>
    have hle := loop_left cfg 0
    refine ⟨?_, loop_ne_out cfg 0⟩
    show (loop cfg 0).left cfg.threadCnt < 3 * cfg.threadCnt + 2
    omega
  | create i => exact ⟨Nat.lt_succ_self _, by simp [StartPc.after]⟩
  | wait i =>
    have hi := hcurrent i (Or.inr (Or.inl hpc))
    refine ⟨?_, by simp [StartPc.after]⟩
    show 3 * (cfg.threadCnt - i) - 1 < 3 * (cfg.threadCnt - i)
    omega
  | push i =>
    have hi := hcurrent i (Or.inr (Or.inr hpc))
    have hle := loop_left cfg (i + 1)
    refine ⟨?_, loop_ne_out cfg (i + 1)⟩
    show (loop cfg (i + 1)).left cfg.threadCnt < 3 * (cfg.threadCnt - i) - 1
    omega
  | unlock => exact ⟨Nat.zero_lt_one, by simp [StartPc.after]⟩

/-! ### One step -/

/-- Outside the wait, a step of `start()` goes to what comes next, and another step leaves `start()` where it is. -/
theorem start_next (h : Inv cfg cb s) {a : Act} (hg : guard s a) (hout : s.start ≠ .out)
    (hwait : ∀ i, s.start ≠ .wait i) :
    (next cfg cb s a).start = if a.own then s.start.after cfg else s.start := by
  cases a with
  | call => exact absurd hg hout
  | acquire =>
    rw [hg.1]
    rfl
  | check =>
    have hstart : s.start = .check := hg
    have hempty : s.mPool = [] := by
      rw [h.pool, hstart]
      rfl
    simp [next, h.running, hempty, hstart, Act.own, StartPc.after]
  | create i =>
    rw [show s.start = .create i from hg]
    rfl
  | wait i a => exact absurd hg.1 (hwait i)
  | push i =>
    rw [show s.start = .push i from hg]
    rfl
  | unlock =>
    rw [show s.start = .unlock from hg]
    rfl
  | invoke i =>
    simp only [next]
    split <;> rfl
  | setId i | swap i | signal i notified | request i | enter i | leave i | finish i => rfl

/-- In the wait, `start()` stays there or goes to what comes next. -/
theorem start_next_wait {a : Act} {i : Nat} (hg : guard s a) (hstart : s.start = .wait i) :
    (next cfg cb s a).start = .push i ∨ (next cfg cb s a).start = .wait i ∧ ∀ b, a = .wait i b →
      (Semaphore.next (s.thread i).semaphore b).pc .parent ≠ .out := by
  cases a with
  | wait j a =>
    obtain rfl : i = j := StartPc.wait.inj (hstart.symm.trans hg.1)
    by_cases hpc : (Semaphore.next (s.thread i).semaphore a).pc .parent = .out
    · exact Or.inl (if_pos hpc)
    · refine Or.inr ⟨if_neg hpc, fun b hb => ?_⟩
      cases hb
      exact hpc
  | call => cases hstart.symm.trans hg
  | acquire => cases hstart.symm.trans hg.1
  | check | create j | push j | unlock => cases hstart.symm.trans hg
  | invoke j =>
    refine Or.inr ⟨?_, by simp⟩
    simp only [next]
    split <;> exact hstart
  | setId j | swap j | signal j notified | request j | enter j | leave j | finish j =>
    exact Or.inr ⟨hstart, by simp⟩

/-- A child that has been born goes on by its own steps, and only by them. -/
theorem left_next (h : Inv cfg cb s) {a : Act} {i : Nat} (hg : guard s a) (hborn : (s.thread i).pc ≠ .unborn) :
    ((next cfg cb s a).thread i).pc ≠ .unborn ∧
      if a.child = some i ∧ 0 < (s.thread i).pc.left then
        ((next cfg cb s a).thread i).pc.left < (s.thread i).pc.left
      else ((next cfg cb s a).thread i).pc.left = (s.thread i).pc.left := by
  have hsame : ((next cfg cb s a).thread i).pc = (s.thread i).pc → a.child ≠ some i →
      ((next cfg cb s a).thread i).pc ≠ .unborn ∧
        if a.child = some i ∧ 0 < (s.thread i).pc.left then
          ((next cfg cb s a).thread i).pc.left < (s.thread i).pc.left
        else ((next cfg cb s a).thread i).pc.left = (s.thread i).pc.left := by
    intro hpc hother
    rw [if_neg fun hn => hother hn.1, hpc]
    exact ⟨hborn, rfl⟩
  cases a with
  | call | acquire | push j | unlock => exact hsame rfl (by simp [Act.child])
  | check =>
    refine hsame ?_ (by simp [Act.child])
    simp only [next]
    split_ifs <;> rfl
  | create j =>
    have hne : i ≠ j := by
      rintro rfl
      refine hborn ((h.threads i).born.2 ?_)
      rw [show s.start = .create i from hg]
      exact Nat.le_refl i
    exact hsame (by simp [next, hne]) (by simp [Act.child])
  | wait j a =>
    refine hsame ?_ (by simp [Act.child])
    rcases eq_or_ne i j with rfl | hne
    · simp [next]
    · simp [next, hne]
  | invoke j =>
    have hpc : (s.thread j).pc = .call := hg
    have hdata := (h.threads j).data
    simp only [Data, hpc] at hdata
    rcases eq_or_ne i j with rfl | hne
    · simp [next, hdata.2.1, Act.child, hpc, ChildPc.left]
    · refine hsame ?_ (by simpa [Act.child] using hne.symm)
      simp [next, hdata.2.1, hne]
  | setId j | swap j | request j | finish j | leave j =>
    rcases eq_or_ne i j with rfl | hne
    · have hpc := show (s.thread i).pc = _ from hg
      simp [next, Act.child, hpc, ChildPc.left]
    · exact hsame (by simp [next, hne]) (by simpa [Act.child] using hne.symm)
  | signal j notified =>
    rcases eq_or_ne i j with rfl | hne
    · simp [next, Act.child, hg.1, ChildPc.left]
    · exact hsame (by simp [next, hne]) (by simpa [Act.child] using hne.symm)
  | enter j =>
    rcases eq_or_ne i j with rfl | hne
    · simp [next, Act.child, hg.1, ChildPc.left]
    · exact hsame (by simp [next, hne]) (by simpa [Act.child] using hne.symm)

theorem ChildPc.signalled_iff (p : ChildPc) : p.signalled = true ↔ p ≠ .unborn ∧ p.left ≤ 1 := by
  cases p <;> simp [ChildPc.signalled, ChildPc.left]

theorem ChildPc.invoking_iff (p : ChildPc) : p.invoking = true ↔ p ≠ .unborn ∧ p.left = 0 := by
  cases p <;> simp [ChildPc.invoking, ChildPc.left]

/-- A child stays signalled and invoking. -/
theorem left_le (h : Inv cfg cb s) {a : Act} {i : Nat} (hg : guard s a) (hborn : (s.thread i).pc ≠ .unborn) :
    ((next cfg cb s a).thread i).pc.left ≤ (s.thread i).pc.left := by
  have hleft := (left_next h hg hborn).2
  split_ifs at hleft <;> omega

/-- While `start()` asks for `m_mutex`, nobody holds it. -/
theorem mutex_free (h : Inv cfg cb s) (hstart : s.start = .lock) : s.mMutex = none := by
  obtain ⟨a, hg, hnone | ⟨i, hi, -⟩⟩ := start_goes_on h (by simp [hstart])
  · cases a with
    | acquire => exact hg.2
    | wait j b => cases hstart.symm.trans hg.1
    | call | check | create j | push j | unlock => cases hstart.symm.trans hg
    | _ => cases hnone
  · cases hstart.symm.trans hi

/-! ### Whole executions -/

section Fair

variable {π : (system cfg cb).Path Always}

/-- A child that has been born invokes its callback. -/
theorem invoked_leads {i : Nat} (hchild : π.Just (child i)) :
    π.Leads (fun s => (s.thread i).pc ≠ .unborn) (fun s => (s.thread i).pc.invoking = true) := by
  refine System.Path.leads_of_rank hchild (fun s => (s.thread i).pc.left) (fun n hn => ?_) ?_
  · rcases Nat.eq_zero_or_pos ((π.state n).thread i).pc.left with hzero | hpos
    · exact Or.inr ((ChildPc.invoking_iff _).2 ⟨hn, hzero⟩)
    · exact Or.inl hpos
  · intro s a hr hborn he _
    obtain ⟨hborn', hleft⟩ := left_next (inv_reach hr) he.2 hborn
    rcases Nat.eq_zero_or_pos (s.thread i).pc.left with hzero | hpos
    · refine Or.inl ((ChildPc.invoking_iff _).2 ⟨hborn', ?_⟩)
      have hle := left_le (inv_reach hr) he.2 hborn
      exact Nat.le_zero.1 (hle.trans_eq hzero)
    · refine Or.inr ⟨hborn', ?_⟩
      split_ifs at hleft with hmine
      · exact Or.inl hleft
      · exact Or.inr ⟨hleft, fun hn => hmine ⟨hn, hpos⟩⟩

/-- The child on which the constructor waits signals. -/
theorem signalled_leads {i : Nat} (hchild : π.Just (child i)) : π.Leads (fun s => s.start = .wait i)
    (fun s => s.start = .push i ∨ s.start = .wait i ∧ (s.thread i).pc.signalled = true) := by
  have hborn : ∀ {s : State C}, (system cfg cb).Reach Always s → s.start = .wait i → (s.thread i).pc ≠ .unborn := by
    intro s hr hstart hn
    have hle := ((inv_reach hr).threads i).born.1 hn
    rw [hstart] at hle
    exact Nat.not_succ_le_self i hle
  refine System.Path.leads_of_rank hchild (fun s => (s.thread i).pc.left) (fun n hn => ?_) ?_
  · rcases Nat.lt_or_ge 1 ((π.state n).thread i).pc.left with hlt | hle
    · exact Or.inl (Nat.zero_lt_of_lt hlt)
    · exact Or.inr (Or.inr ⟨hn, (ChildPc.signalled_iff _).2 ⟨hborn (π.reach n) hn, hle⟩⟩)
  · intro s a hr hstart he _
    rcases start_next_wait he.2 hstart with hpush | ⟨hwait, -⟩
    · exact Or.inl (Or.inl hpush)
    · obtain ⟨hborn', hleft⟩ := left_next (inv_reach hr) he.2 (hborn hr hstart)
      rcases Nat.lt_or_ge 1 ((next cfg cb s a).thread i).pc.left with hlt | hle
      · refine Or.inr ⟨hwait, ?_⟩
        split_ifs at hleft with hmine
        · exact Or.inl hleft
        · exact Or.inr ⟨hleft, fun hn => hmine ⟨hn, hleft ▸ Nat.zero_lt_of_lt hlt⟩⟩
      · exact Or.inl (Or.inr ⟨hwait, (ChildPc.signalled_iff _).2 ⟨hborn', hle⟩⟩)

/-- One pass through the loop of `wait()` ends it or blocks. -/
theorem wait_own (sem : Semaphore.State Side) {b : Semaphore.Act Side} {i : Nat} (hb : isWait b)
    (hown : (Act.wait i b).own = true) :
    (Semaphore.next sem b).pc .parent = .out ∨ (Semaphore.next sem b).pc .parent = .blocked := by
  cases b with
  | wait t | retest t =>
    obtain rfl : t = .parent := hb
    simp only [Semaphore.next, Semaphore.State.test]
    split_ifs <;> simp
  | spurious t | signal t u => cases hown

/-- Behind the child's signal the constructor returns. -/
theorem returns_leads (hstarter : π.Just starter) {i : Nat} :
    π.Leads (fun s => s.start = .wait i ∧ (s.thread i).pc.signalled = true) (fun s => s.start = .push i) := by
  refine System.Path.leads_of_rank hstarter (fun _ => 0) (fun n hn => Or.inl ?_) ?_
  · have hnot := (not_blocked (inv_reach (π.reach n)) hn.1 hn.2).1
    refine ⟨by simp [hn.1], by simp [hn.1], fun hlock => ?_, fun j hj => ?_⟩
    · cases hn.1.symm.trans hlock
    · cases hn.1.symm.trans hj
      exact hnot
  · rintro s a hr ⟨hstart, hsig⟩ he -
    have h := inv_reach hr
    rcases start_next_wait he.2 hstart with hpush | ⟨hwait, hstay⟩
    · exact Or.inl hpush
    · obtain ⟨hborn, hle⟩ := (ChildPc.signalled_iff _).1 hsig
      have hsig' : ((next cfg cb s a).thread i).pc.signalled = true :=
        (ChildPc.signalled_iff _).2 ⟨(left_next h he.2 hborn).1, (left_le h he.2 hborn).trans hle⟩
      refine Or.inr ⟨⟨hwait, hsig'⟩, Or.inr ⟨rfl, fun hown => ?_⟩⟩
      -- the step would have left the constructor blocked
      have hnot := (not_blocked (inv_next h he.2) hwait hsig').1
      cases a with
      | wait j b =>
        have hg := he.2
        obtain rfl : i = j := StartPc.wait.inj (hstart.symm.trans hg.1)
        rcases wait_own (s.thread i).semaphore hg.2.1 hown with hout | hblocked
        · exact hstay b rfl hout
        · exact hnot (by simpa [next] using hblocked)
      | acquire => cases hstart.symm.trans he.2.1
      | check | create j | push j | unlock => cases hstart.symm.trans he.2
      | _ => cases hown

/-- `start()` gets from each place to the next. -/
theorem start_moves (hstarter : π.Just starter) (hchild : ∀ i, π.Just (child i)) (p : StartPc) (hout : p ≠ .out)
    (hdone : p ≠ .done) : π.Leads (fun s => s.start = p) (fun s => s.start = p.after cfg) := by
  by_cases hwait : ∃ i, p = .wait i
  · obtain ⟨i, rfl⟩ := hwait
    intro n hn
    obtain ⟨m, hm, hpush | hsig⟩ := signalled_leads (hchild i) n hn
    · exact ⟨m, hm, hpush⟩
    · obtain ⟨k, hk, hpush⟩ := returns_leads hstarter m hsig
      exact ⟨k, hm.trans hk, hpush⟩
  · refine System.Path.leads_of_rank hstarter (fun _ => 0) (fun n hn => Or.inl ?_) ?_
    · have h := inv_reach (π.reach n)
      refine ⟨hn ▸ hout, hn ▸ hdone, fun hlock => ?_, fun i hi => absurd ⟨i, hn.symm.trans hi⟩ hwait⟩
      exact mutex_free h hlock
    · rintro s a hr rfl he -
      have hnext := start_next (inv_reach hr) he.2 hout fun i hi => hwait ⟨i, hi⟩
      split_ifs at hnext with hown
      · exact Or.inl hnext
      · exact Or.inr ⟨hnext, Or.inr ⟨rfl, hown⟩⟩

/-- A call of `start()` returns. -/
theorem done_leads (hstarter : π.Just starter) (hchild : ∀ i, π.Just (child i)) :
    π.Leads (fun s => s.start ≠ .out) (fun s => s.start = .done) := by
  intro n hn
  induction hl : (π.state n).start.left cfg.threadCnt using Nat.strongRecOn generalizing n with
  | ind l ih =>
    by_cases hdone : (π.state n).start = .done
    · exact ⟨n, Nat.le_refl n, hdone⟩
    · obtain ⟨hless, hout⟩ := after_left (inv_reach (π.reach n)) hn hdone
      obtain ⟨m, hm, hafter⟩ := start_moves hstarter hchild _ hn hdone n rfl
      obtain ⟨k, hk, hq⟩ := ih _ (by rw [← hl, hafter]; exact hless) m (by rw [hafter]; exact hout) rfl
      exact ⟨k, hm.trans hk, hq⟩

/-- Behind its end `start()` does nothing more. -/
theorem done_stays {n m : Nat} (hnm : n ≤ m) (h : (π.state n).start = .done) : (π.state m).start = .done := by
  refine π.stable (p := fun s => s.start = .done) ?_ hnm h
  intro s a hr hdone he _
  have hnext := start_next (inv_reach hr) he.2 (by simp [hdone]) (by simp [hdone])
  rw [hdone] at hnext
  refine hnext.trans ?_
  split_ifs <;> rfl

/-- A callback that has been invoked stays so. -/
theorem invoked_stays {i n m : Nat} (hnm : n ≤ m) (h : ((π.state n).thread i).pc.invoking = true) :
    ((π.state m).thread i).pc.invoking = true := by
  refine π.stable (p := fun s => (s.thread i).pc.invoking = true) ?_ hnm h
  intro s a hr hinv he _
  obtain ⟨hborn, hzero⟩ := (ChildPc.invoking_iff _).1 hinv
  have hle := left_le (inv_reach hr) he.2 hborn
  exact (ChildPc.invoking_iff _).2 ⟨(left_next (inv_reach hr) he.2 hborn).1, Nat.le_zero.1 (hle.trans_eq hzero)⟩

/-- **`start()` returns.** Where `start()` and the children go on as long as they can, a call of `start()` returns, and
sooner or later every thread it has created has invoked its callback, once; `m_threadIds` then has the ids in order. -/
theorem start_returns (π : (system cfg cb).Path Always) (hstarter : π.Just starter) (hchild : ∀ i, π.Just (child i)) :
    π.Leads (fun s => s.start ≠ .out) fun s => s.start = .done ∧
      s.mThreadIds = cfg.root.toList ++ (List.range cfg.threadCnt).map cfg.tid ∧
      ∀ i < cfg.threadCnt, (s.thread i).invoked = [cb] := by
  intro n hn
  obtain ⟨m, hm, hdone⟩ := done_leads hstarter hchild n hn
  have hborn : ∀ i ∈ List.range cfg.threadCnt, ∃ k ≥ m, ((π.state k).thread i).pc.invoking = true := by
    intro i hi
    refine invoked_leads (hchild i) m fun hunborn => ?_
    have hle := ((inv_reach (π.reach m)).threads i).born.1 hunborn
    rw [hdone] at hle
    exact absurd (List.mem_range.1 hi) (Nat.not_lt.2 hle)
  obtain ⟨k, hk, hall⟩ := π.all_leads (q := fun i s => (s.thread i).pc.invoking = true)
    (fun _ _ _ hnm => invoked_stays hnm) hborn
  have hinv := inv_reach (π.reach k)
  have hdone' := done_stays hk hdone
  refine ⟨k, hm.trans hk, hdone', ?_, fun i hi => ?_⟩
  · have hids := hinv.ids
    rwa [hdone'] at hids
  · rw [hinv.invoked i, if_pos (hall i (List.mem_range.2 hi))]

end Fair

/-- The first constructor has to wait twice, and the second child is the last to invoke its callback. -/
def returningRun : List Act :=
  [.call, .acquire, .check] ++ slowRun 0 ++ quickRun 1 ++ [.unlock, .invoke 1]

theorem start_returns_pair : ∃ π : (system (pool 2) ()).Path Always, (π.state 1).start = .lock ∧
    ∃ m ≥ 1, (π.state m).start = .done ∧ (π.state m).mThreadIds = [9, 10, 11] ∧
      ((π.state m).thread 0).invoked = [()] ∧ ((π.state m).thread 1).invoked = [()] := by
  have h : (System.exec (system (pool 2) ()) Always (initial Unit (pool 2)) returningRun).any
      (fun s : State Unit => decide (s.start = .done ∧ ∀ i : Fin 2, (s.thread i).pc.left = 0)) = true := by
    decide
  obtain ⟨t, hsteps, ht⟩ := System.exists_exec h
  obtain ⟨hdone, hpair⟩ := of_decide_eq_true ht
  have hleft : ∀ i, (t.thread i).pc.left = 0 := by
    intro i
    rcases Nat.lt_or_ge i 2 with hlt | hge
    · exact hpair ⟨i, hlt⟩
    · -- there is no such thread
      have hunborn : (t.thread i).pc = .unborn :=
        ((inv_reach ⟨_, _, rfl, hsteps⟩).threads i).born.2 (by rw [hdone]; exact hge)
      rw [hunborn]
      rfl
  obtain ⟨m, hm, hend, hids, hinvoked⟩ := start_returns (hsteps.path rfl)
    (System.Steps.just_of_end rfl hsteps fun hready => hready.2.1 hdone)
    (fun i => System.Steps.just_of_end rfl hsteps fun hready => Nat.ne_of_gt hready (hleft i)) 1
    (show StartPc.lock ≠ .out by simp)
  exact ⟨hsteps.path rfl, rfl, m, hm, hend, hids, hinvoked 0 (by decide), hinvoked 1 (by decide)⟩

end Start

end Sylar
