import Mathlib.Logic.Function.Basic
import Sylar.Lib.Counting
import Sylar.Lib.Transition

/-!
# The semaphore

`Semaphore::wait` and `Semaphore::signal` (`semaphore.cpp`), for any number of threads in any interleaving. What a
thread does from locking `_mutex` to unlocking it, or to the `_cv.wait` that unlocks it, is one step. A thread that has
been woken, by `notify_one` or spuriously, locks `_mutex` again and tests the loop condition again.

- `signals`, `completes`, `histories`: the calls that a run completes;
- `Inv`, `inv_next`: the count is what the completed calls make it, and is at most the number of woken threads while
  some thread is blocked;
- `sound`: the run lemma;
- `Units`, `refinement`: the semaphore is a counter of units that are put down and taken.
-/

namespace Sylar.Semaphore

open Trans

/-- Where a thread is: outside the semaphore, blocked in `_cv.wait`, or woken and not yet at the loop condition again.
-/
inductive Pc where
  | out
  | blocked
  | woken
deriving DecidableEq, Repr

/-- `_count`, and every thread's position. The last two fields are histories: the calls that have completed. -/
structure State (T : Type) where
  count : Int
  pc : T → Pc
  signals : Nat
  waits : Nat

/-- The steps. The first argument is the thread that moves, or that `_cv` lets go; `notified` is the choice of
`notify_one`. -/
inductive Act (T : Type) where
  | wait (t : T)
  | retest (t : T)
  | spurious (t : T)
  | signal (t : T) (notified : Option T)
deriving DecidableEq, Repr

variable {T : Type} [DecidableEq T]

/-- The value of an `int`. -/
def int (x : Int) : Int := x.bmod (2 ^ 32)

/-- `Semaphore(int count)`. -/
def initial (T : Type) (c : Int) : State T := ⟨c, fun _ => .out, 0, 0⟩

/-- `while (_count == 0) _cv.wait(lock); _count--;` from one test of the condition up to the next. -/
def State.test (s : State T) (t : T) : State T :=
  if s.count = 0 then { s with pc := Function.update s.pc t .blocked }
  else { s with count := int (s.count - 1), pc := Function.update s.pc t .out, waits := s.waits + 1 }

/-- Where a step is possible. `notify_one` wakes one of the blocked threads, if there is one. -/
def guard (s : State T) : Act T → Prop
  | .wait t => s.pc t = .out
  | .retest t => s.pc t = .woken
  | .spurious t => s.pc t = .blocked
  | .signal t (some u) => s.pc t = .out ∧ s.pc u = .blocked
  | .signal t none => s.pc t = .out ∧ ∀ u, s.pc u ≠ .blocked

/-- What a step does. -/
def next (s : State T) : Act T → State T
  | .wait t | .retest t => s.test t
  | .spurious t => { s with pc := Function.update s.pc t .woken }
  | .signal _ notified =>
    { s with
      count := int (s.count + 1)
      signals := s.signals + 1
      pc := match notified with
        | some u => Function.update s.pc u .woken
        | none => s.pc }

/-- **The semaphore** with the initial count `c`. -/
def system (T : Type) [DecidableEq T] (c : Int) : System (State T) (Act T) where
  init s := s = initial T c
  enabled := guard
  next := next

/-- `c` and the number of signals stay in the range of an `int`. -/
def InRange (c : Int) (s : State T) : Act T → Prop
  | .signal _ _ => c + s.signals + 1 < 2 ^ 31
  | _ => True

theorem int_eq {x : Int} (h₀ : 0 ≤ x) (h₁ : x < 2 ^ 31) : int x = x := by
  unfold int
  rw [Int.bmod_def]
  omega

/-! ## Completed calls -/

/-- A step that is a `signal()`. -/
def signals (_ : State T) : Act T → Bool
  | .signal _ _ => true
  | _ => false

/-- A step behind which a `wait()` has returned. -/
def completes (s : State T) : Act T → Bool
  | .wait t => (next s (.wait t)).pc t == .out
  | .retest t => (next s (.retest t)).pc t == .out
  | _ => false

theorem test_completes (s : State T) (t : T) : (s.test t).waits = s.waits + ((s.test t).pc t == .out).toNat := by
  unfold State.test
  split <;> simp

/-- **The histories are those of the run.** -/
theorem histories {c : Int} {P : State T → Act T → Prop} {s₀ s : State T} {as : List (Act T)}
    (hinit : (system T c).init s₀) (h : (system T c).Steps P s₀ as s) :
    s.signals = (system T c).tally signals s₀ as ∧ s.waits = (system T c).tally completes s₀ as := by
  have hsignals := h.tally_eq (p := signals) State.signals ?_
  have hwaits := h.tally_eq (p := completes) State.waits ?_
  · obtain rfl : s₀ = initial T c := hinit
    simpa [initial] using And.intro hsignals hwaits
  · intro s a _ _
    cases a with
    | wait t | retest t => exact test_completes s t
    | spurious t | signal t notified => rfl
  · intro s a _ _
    cases a with
    | wait t | retest t =>
      change (s.test t).signals = s.signals
      unfold State.test
      split <;> rfl
    | spurious t | signal t notified => rfl

/-! ## The invariant -/

def Pc.isWoken : Pc → Bool
  | .woken => true
  | _ => false

section Invariant

variable [Fintype T]

/-- The threads that have been woken and have not yet tested the condition again. -/
def State.woken (s : State T) : Nat := Counting.count Pc.isWoken s.pc

/-- **The invariant.** -/
structure Inv (c : Int) (s : State T) : Prop where
  count : s.count = c + s.signals - s.waits
  nonneg : 0 ≤ s.count
  max : c + s.signals < 2 ^ 31
  covered : (∃ t, s.pc t = .blocked) → s.count ≤ s.woken

/-- Who is woken after one thread has moved. -/
theorem woken_update (s : State T) (t : T) (p : Pc) :
    Counting.count Pc.isWoken (Function.update s.pc t p) + (s.pc t).isWoken.toNat = s.woken + p.isWoken.toNat :=
  Counting.count_update Pc.isWoken s.pc t p

omit [Fintype T] in
/-- A thread that was blocked before somebody else moved. -/
theorem blocked_of_update {s : State T} {t : T} {p : Pc} (hp : p ≠ .blocked)
    (h : ∃ u, Function.update s.pc t p u = .blocked) : ∃ u, s.pc u = .blocked := by
  obtain ⟨u, hu⟩ := h
  rcases eq_or_ne u t with rfl | hne
  · rw [Function.update_self] at hu
    exact absurd hu hp
  · rw [Function.update_of_ne hne] at hu
    exact ⟨u, hu⟩

/-- One pass through the loop of `wait()`. -/
theorem Inv.test {c : Int} {s : State T} (h : Inv c s) (t : T) : Inv c (s.test t) := by
  obtain ⟨hcount, hnonneg, hmax, hcovered⟩ := h
  unfold State.test
  split_ifs with hzero
  · -- nothing to take: the units are those of the other woken threads
    refine ⟨hcount, hnonneg, hmax, fun _ => ?_⟩
    rw [hzero]
    exact Int.natCast_nonneg _
  · have hint : int (s.count - 1) = s.count - 1 := int_eq (by omega) (by omega)
    have hwoken := woken_update s t .out
    change _ = s.woken + 0 at hwoken
    refine ⟨?_, ?_, hmax, fun hblocked => ?_⟩
    · change int (s.count - 1) = c + s.signals - (s.waits + 1 : Nat)
      omega
    · change 0 ≤ int (s.count - 1)
      omega
    · have hold := hcovered (blocked_of_update (by simp) hblocked)
      have hone := Bool.toNat_le (s.pc t).isWoken
      change int (s.count - 1) ≤ (Counting.count Pc.isWoken (Function.update s.pc t .out) : Nat)
      omega

/-- **Every step keeps the invariant.** -/
theorem inv_next {c : Int} {s : State T} {a : Act T} (h : Inv c s) (hg : guard s a) (hp : InRange c s a) :
    Inv c (next s a) := by
  cases a with
  | wait t | retest t => exact h.test t
  | spurious t =>
    obtain ⟨hcount, hnonneg, hmax, hcovered⟩ := h
    have hwoken := woken_update s t .woken
    rw [show s.pc t = .blocked from hg] at hwoken
    change _ + 0 = s.woken + 1 at hwoken
    refine ⟨hcount, hnonneg, hmax, fun _ => ?_⟩
    have hold := hcovered ⟨t, hg⟩
    change s.count ≤ (Counting.count Pc.isWoken (Function.update s.pc t .woken) : Nat)
    omega
  | signal t notified =>
    obtain ⟨hcount, hnonneg, hmax, hcovered⟩ := h
    have hp : c + s.signals + 1 < 2 ^ 31 := hp
    -- the completed waits took what was there
    have hint : int (s.count + 1) = s.count + 1 := int_eq (by omega) (by omega)
    refine ⟨?_, ?_, ?_, fun hblocked => ?_⟩
    · change int (s.count + 1) = c + (s.signals + 1 : Nat) - s.waits
      omega
    · change 0 ≤ int (s.count + 1)
      omega
    · change c + (s.signals + 1 : Nat) < 2 ^ 31
      omega
    · cases notified with
      | none =>
        obtain ⟨u, hu⟩ := hblocked
        exact absurd hu (hg.2 u)
      | some u =>
        have hwoken := woken_update s u .woken
        rw [hg.2] at hwoken
        change _ + 0 = s.woken + 1 at hwoken
        have hold := hcovered ⟨u, hg.2⟩
        change int (s.count + 1) ≤ (Counting.count Pc.isWoken (Function.update s.pc u .woken) : Nat)
        omega

omit [DecidableEq T] in
theorem inv_initial {c : Int} (h₀ : 0 ≤ c) (h₁ : c < 2 ^ 31) : Inv c (initial T c) := by
  refine ⟨by simp [initial], h₀, by simpa [initial] using h₁, ?_⟩
  rintro ⟨t, ht⟩
  cases ht

theorem inv_reach {c : Int} (h₀ : 0 ≤ c) (h₁ : c < 2 ^ 31) {s : State T}
    (h : (system T c).Reach (InRange c) s) : Inv c s := by
  apply h.inv
  · rintro s rfl
    exact inv_initial h₀ h₁
  · intro s a hs he hp
    exact inv_next hs he hp

/-- **The semaphore is sound and loses no wake-up**: behind every run the count is what the signals and the completed
waits of the run have made it, and while some thread is blocked, there are no more units than woken threads. -/
theorem sound {c : Int} (h₀ : 0 ≤ c) (h₁ : c < 2 ^ 31) {s₀ s : State T} {as : List (Act T)}
    (hinit : (system T c).init s₀) (h : (system T c).Steps (InRange c) s₀ as s) :
    (s.signals = (system T c).tally signals s₀ as ∧ s.waits = (system T c).tally completes s₀ as) ∧
      (s.count = c + s.signals - s.waits ∧ 0 ≤ s.count) ∧
      ((∃ t, s.pc t = .blocked) → s.count ≤ s.woken ∧ (0 < s.count → ∃ t, s.pc t = .woken)) := by
  have hinv := inv_reach h₀ h₁ ⟨s₀, as, hinit, h⟩
  refine ⟨histories hinit h, ⟨hinv.count, hinv.nonneg⟩, fun hblocked => ⟨hinv.covered hblocked, fun hpos => ?_⟩⟩
  have hcovered := hinv.covered hblocked
  have hpos : 0 < s.woken := by omega
  obtain ⟨t, ht⟩ := Counting.exists_of_count_pos (p := Pc.isWoken) (g := s.pc) hpos
  refine ⟨t, ?_⟩
  cases hpc : s.pc t with
  | woken => rfl
  | out | blocked =>
    rw [hpc] at ht
    cases ht

end Invariant

instance [Fintype T] (s : State T) (a : Act T) : Decidable (guard s a) := by
  cases a with
  | signal t notified => cases notified <;> dsimp only [guard] <;> infer_instance
  | _ => dsimp only [guard]; infer_instance

instance [Fintype T] (c : Int) (s : State T) (a : Act T) : Decidable ((system T c).enabled s a) :=
  inferInstanceAs (Decidable (guard s a))

instance (c : Int) (s : State T) (a : Act T) : Decidable (InRange c s a) := by
  cases a <;> dsimp only [InRange] <;> infer_instance

/-- Threads `a` and `b` block, `a` is woken by a signal of `d`, and `b` spuriously. -/
def wokenRun (a b d : Fin 4) : List (Act (Fin 4)) :=
  [.wait a, .wait b, .signal d (some a), .spurious b]

/-- A third waiter blocks again after the newcomer has taken the unit. -/
theorem sound_four : ∃ s : State (Fin 4), (s.pc 0 = .blocked ∧ s.pc 1 = .woken) ∧
    (s.signals = (system (Fin 4) 0).tally signals (initial _ 0) (wokenRun 0 1 2 ++ [.wait 3, .retest 0]) ∧
      s.count = 0 + s.signals - s.waits ∧ 0 ≤ s.count) ∧ s.count ≤ s.woken := by
  have h : (System.exec (system (Fin 4) 0) (InRange 0) (initial _ 0)
      (wokenRun 0 1 2 ++ [.wait 3, .retest 0])).any (fun s => s.pc 0 == .blocked && s.pc 1 == .woken) = true := by
    decide
  obtain ⟨s, hsteps, hs⟩ := System.exists_exec h
  simp only [Bool.and_eq_true, beq_iff_eq] at hs
  obtain ⟨⟨hsignals, -⟩, hcount, hcovered⟩ := sound (by decide) (by decide) rfl hsteps
  exact ⟨s, hs, ⟨hsignals, hcount⟩, (hcovered ⟨0, hs.1⟩).1⟩

/-! ## A counter of units -/

/-- A unit is put down or taken. -/
inductive UnitAct where
  | put
  | take
deriving DecidableEq, Repr

/-- What a semaphore is for: `take` waits until there is a unit. -/
def Units (c : Nat) : System Nat UnitAct where
  init n := n = c
  enabled n
    | .put => True
    | .take => 0 < n
  next n
    | .put => n + 1
    | .take => n - 1

/-- What a pass through the loop does to the units. -/
theorem test_units {c : Int} [Fintype T] {s : State T} (h : Inv c s) (t : T) (m : Nat) :
    (Units m).Steps Always s.count.toNat (if s.count = 0 then [] else [.take]) (s.test t).count.toNat := by
  obtain ⟨hcount, hnonneg, hmax, -⟩ := h
  unfold State.test
  split_ifs with hzero
  · exact .nil _
  · have hint : int (s.count - 1) = s.count - 1 := int_eq (by omega) (by omega)
    have hstep : (int (s.count - 1)).toNat = s.count.toNat - 1 := by omega
    change (Units m).Steps Always s.count.toNat [.take] (int (s.count - 1)).toNat
    rw [hstep]
    refine .cons ?_ trivial (.nil _)
    change 0 < s.count.toNat
    omega

/-- **The semaphore refines the counter**: a completed `wait()` has taken a unit and a `signal()` puts one down. -/
def refinement (T : Type) [DecidableEq T] [Fintype T] (c : Int) (h₀ : 0 ≤ c) (h₁ : c < 2 ^ 31) :
    Simulation (system T c) (InRange c) (Units c.toNat) Always where
  abs s := s.count.toNat
  acts s a :=
    match a with
    | .wait _ | .retest _ => if s.count = 0 then [] else [.take]
    | .spurious _ => []
    | .signal _ _ => [.put]
  init := by
    rintro s rfl
    rfl
  step := by
    intro s a hr he hp
    have hinv := inv_reach h₀ h₁ hr
    cases a with
    | wait t | retest t => exact test_units hinv t _
    | spurious t => exact .nil _
    | signal t notified =>
      obtain ⟨hcount, hnonneg, -, -⟩ := hinv
      have hp : c + s.signals + 1 < 2 ^ 31 := hp
      have hint : int (s.count + 1) = s.count + 1 := int_eq (by omega) (by omega)
      have hstep : (int (s.count + 1)).toNat = s.count.toNat + 1 := by omega
      change (Units c.toNat).Steps Always s.count.toNat [.put] (int (s.count + 1)).toNat
      rw [hstep]
      exact .cons trivial trivial (.nil _)

end Sylar.Semaphore
