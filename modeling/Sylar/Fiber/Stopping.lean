import Sylar.Fiber.Life
import Sylar.Fiber.Lifetime
import Sylar.Scheduler.Shutdown

/-!
# What `stopping()` says about fibers

`stopping()` asks for `m_stopping`, an empty queue and no counted worker. A worker is counted while it handles a fiber,
so that no fiber is `RUNNING` then; but a fiber that has yielded, and that nobody has queued again, is neither queued
nor counted once its worker has decremented `m_activeThreadCnt`.

- `stopping_rest`: where `stopping()` is true, a fiber with code left to run is suspended; `gone_of_stays`: and none
  comes to life, which it would by `resume()` only;
- `stopping_done`: `stopping()` means that every fiber that was resumed is `TERM`, as long as it becomes true only while
  none is suspended; `stopping_dropped`: a fiber that yields and is not queued again.
-/

set_option linter.unusedSectionVars false

namespace Sylar.Fibers

open Trans Ownership

variable {W E C : Type} [DecidableEq W] [DecidableEq E] {cfg : Sylar.Config W E} {s : State W E C}

/-! ## Where `stopping()` becomes true -/

/-- The fiber has been resumed, has yielded, and waits for the next `resume()`. -/
def State.Suspended (s : State W E C) (f : FiberId W) : Prop :=
  (s.fib f).started = true ∧ (s.fib f).mState = .ready

/-- **No fiber is left behind**: no fiber that a task was made for is suspended when the last counted worker decrements
`m_activeThreadCnt` behind `m_stopping` with nothing queued, or when `stop()` sets `m_stopping` with nothing queued and
nobody counted. -/
def NoneLeft (s : State W E C) : Act W E C → Prop
  | .base (.decr _) => s.base.mStopping = true → s.base.mTasks = [] → s.base.mActiveThreadCnt = 1 →
      ∀ n < s.nextId, ¬ s.Suspended (.task n)
  | .base (.stopSet _) => s.base.mTasks = [] → s.base.mActiveThreadCnt = 0 → ∀ n < s.nextId, ¬ s.Suspended (.task n)
  | _ => True

/-- `stopping()` becomes true by a decrement or by `stop()`. -/
theorem stopping_begins {b : Sched.State W E (FiberId W) C} {a : Sched.Act W E (FiberId W) C} (hb : b.stopping = false)
    (h : (Sched.next cfg b a).stopping = true) :
    (∃ w, a = .decr w ∧ b.mStopping = true ∧ b.mTasks = [] ∧ b.mActiveThreadCnt = 1) ∨
      ∃ e, a = .stopSet e ∧ b.mTasks = [] ∧ b.mActiveThreadCnt = 0 := by
  have hchanged : (Sched.next cfg b a).stopping ≠ b.stopping := by
    rw [hb, h]
    simp
  cases a with
  | decr w =>
    obtain ⟨hstop, hq, hact⟩ := Sched.stopping_iff.1 h
    have hq : b.mTasks = [] := hq
    have hact : b.mActiveThreadCnt - 1 = 0 := hact
    refine Or.inl ⟨w, rfl, hstop, hq, ?_⟩
    rcases Nat.eq_zero_or_pos b.mActiveThreadCnt with hzero | hpos
    · rw [show b.stopping = true from Sched.stopping_iff.2 ⟨hstop, hq, hzero⟩] at hb
      cases hb
    · omega
  | stopSet e =>
    obtain ⟨-, hq, hact⟩ := Sched.stopping_iff.1 h
    exact Or.inr ⟨e, rfl, hq, hact⟩
  | scheduleLock t fc thr =>
    refine absurd ?_ hchanged
    simp only [Sched.next, Sched.State.push] at h ⊢
    split_ifs at h ⊢
    · simp [Sched.State.stopping] at h
    · rfl
  | scan w =>
    refine absurd ?_ hchanged
    simp only [Sched.next] at h ⊢
    split at h
    · rfl
    · split_ifs at h ⊢
      · simp [Sched.State.stopping] at h
      · rfl
  | _ =>
    refine absurd ?_ hchanged
    simp only [Sched.next]
    repeat' split
    all_goals rfl

/-- The decrement and the write of `m_stopping` are steps of the scheduler alone. -/
theorem image_base {a : Act W E C} {a' : Sched.Act W E (FiberId W) C} (h : image cfg s a = some a')
    (ha : (∃ w, a' = .decr w) ∨ ∃ e, a' = .stopSet e) : a = .base a' := by
  cases a with
  | base b =>
    cases h
    rfl
  | fire e i =>
    obtain ⟨f, -, rfl⟩ := Option.map_eq_some_iff.1 h
    rcases ha with ⟨w, ha⟩ | ⟨e, ha⟩ <;> cases ha
  | idle w | setTerm w | yswap w =>
    simp only [image] at h
    rcases ha with ⟨v, rfl⟩ | ⟨e, rfl⟩
    all_goals
      repeat' split at h
      all_goals cases h
  | _ => rcases ha with ⟨v, rfl⟩ | ⟨e, rfl⟩ <;> cases h

variable [Fintype W]

/-- Where `stopping()` is true nobody handles a task. -/
theorem not_exec_of_stopping (hbase : cfg.idle ≠ .token) (h : (system C cfg).Reach NoIdleTimer s)
    (hs : s.base.stopping = true) (w : W) : (s.base.worker w).pc ≠ .exec := by
  intro hw
  have hpos := Sched.active_pos (reach_base hbase h) hw
  have hzero := (Sched.stopping_iff.1 hs).2.2
  omega

/-- Where `stopping()` is true, a fiber with code left to run is suspended. -/
theorem stopping_rest (hbase : cfg.idle ≠ .token) (h : (system C cfg).Reach NoIdleTimer s)
    (hs : s.base.stopping = true) (n : Nat) : Gone (s.fib (.task n)) ∨ s.Suspended (.task n) := by
  have hinv := inv_reach h
  have hm : s.mMutex (.task n) = none := by
    by_contra hne
    obtain ⟨w, hw⟩ := Option.ne_none_iff_exists'.1 hne
    exact not_exec_of_stopping hbase h hs w (holder_exec hinv hw)
  have hrest : Rest (.task n) (s.fib (.task n)) := hinv.owned.free (.task n) hm n rfl
  cases hstate : (s.fib (.task n)).mState with
  | running => simp only [Rest, hstate] at hrest
  | term => exact Or.inl (Or.inr hstate)
  | ready =>
    cases hstarted : (s.fib (.task n)).started with
    | false => exact Or.inl (Or.inl hstarted)
    | true => exact Or.inr ⟨hstarted, hstate⟩

/-- A fiber that is not constructed has nothing to run. -/
theorem gone_of_unmade (hbase : cfg.idle ≠ .token) (h : (system C cfg).Reach NoIdleTimer s) {n : Nat}
    (hn : s.nextId ≤ n) : Gone (s.fib (.task n)) :=
  gone_of_ownerless (inv_reach h) ((life_reach hbase h).1.unowned (notMain_task n) hn)

/-- `stopping()` becomes true by a step of the scheduler alone, a decrement or the write of `m_stopping`. -/
theorem stopping_step (hbase : cfg.idle ≠ .token) (hr : (system C cfg).Reach NoIdleTimer s) {a : Act W E C}
    (he : (system C cfg).enabled s a) (hb : s.base.stopping = false) (hs : (next cfg s a).base.stopping = true) :
    (∃ w, a = .base (.decr w) ∧ s.base.mStopping = true ∧ s.base.mTasks = [] ∧ s.base.mActiveThreadCnt = 1) ∨
      ∃ e, a = .base (.stopSet e) ∧ s.base.mTasks = [] ∧ s.base.mActiveThreadCnt = 0 := by
  have hmatch := refines_step hbase (inv_reach hr) he.2
  cases himage : image cfg s a with
  | none =>
    rw [himage] at hmatch
    have hsame : (next cfg s a).base = s.base := hmatch
    rw [hsame, hb] at hs
    cases hs
  | some a' =>
    rw [himage] at hmatch
    have hs' : (Sched.next cfg s.base a').stopping = true := hmatch.2 ▸ hs
    rcases stopping_begins hb hs' with ⟨w, rfl, hstop⟩ | ⟨e, rfl, hq⟩
    · exact Or.inl ⟨w, image_base himage (Or.inl ⟨w, rfl⟩), hstop⟩
    · exact Or.inr ⟨e, image_base himage (Or.inr ⟨e, rfl⟩), hq⟩

/-- Where `stopping()` becomes true and nothing is left behind, no fiber has code left to run. -/
theorem gone_of_begins (hbase : cfg.idle ≠ .token) (hr : (system C cfg).Reach NoIdleTimer s) {a : Act W E C}
    (he : (system C cfg).enabled s a) (hp : NoIdleTimer s a) (hl : NoneLeft s a) (hb : s.base.stopping = false)
    (hs : (next cfg s a).base.stopping = true) (n : Nat) : Gone ((next cfg s a).fib (.task n)) := by
  rcases stopping_rest hbase (hr.step he hp) hs n with hg | hsusp
  · exact hg
  have hstep : (next cfg s a).fib = s.fib ∧ ∀ m < s.nextId, ¬ s.Suspended (.task m) := by
    rcases stopping_step hbase hr he hb hs with ⟨w, rfl, hstop, hq, hact⟩ | ⟨e, rfl, hq, hact⟩
    · exact ⟨rfl, hl hstop hq hact⟩
    · exact ⟨rfl, hl hq hact⟩
  obtain ⟨hfib, hnot⟩ := hstep
  have hsame : (next cfg s a).fib (.task n) = s.fib (.task n) := congrFun hfib _
  rcases Nat.lt_or_ge n s.nextId with hn | hn
  · refine absurd ?_ (hnot n hn)
    unfold State.Suspended
    rw [← hsame]
    exact hsusp
  · change Gone ((next cfg s a).fib (.task n))
    rw [hsame]
    exact gone_of_unmade hbase hr hn

/-- While `stopping()` is true no fiber is resumed, and a fiber comes to life by no other step. -/
theorem gone_of_stays (hbase : cfg.idle ≠ .token) (hr : (system C cfg).Reach NoIdleTimer s) {a : Act W E C}
    (he : (system C cfg).enabled s a) (hp : NoIdleTimer s a) (hs : s.base.stopping = true) {n : Nat}
    (h : Gone (s.fib (.task n))) : Gone ((next cfg s a).fib (.task n)) := by
  have hi := Isolated.inv_reach (hr.mono fun _ _ _ => trivial)
  rcases Nat.lt_or_ge n s.nextId with hn | hn
  · rcases Isolated.turn_of_next hi he.2 hn with hsame | hturn
    · rwa [hsame]
    · have hready : (s.fib (.task n)).mState ≠ .term → (s.fib (.task n)).started = false := h.resolve_right
      generalize (next cfg s a).fib (.task n) = x at hturn ⊢
      cases hturn with
      | set w hstate => exact Or.inl (hready (by simp [hstate]))
      | swap w c _ =>
        have hexec : (s.base.worker w).pc = .exec := ((sync_run he.2.1).1 ((inv_reach hr).sync w)).1
        exact absurd hexec (not_exec_of_stopping hbase hr hs w)
      | yield w _ _ hstate _ => exact Or.inl (hready (by simp [hstate]))
      | setTerm w => exact Or.inr rfl
      | entry w | ret w c | dropSelf w | yswap w c pc => exact h
  · rcases Isolated.nextId_next hi he.2 with hid | ⟨hid, cb, -, hnew⟩
    · exact gone_of_unmade hbase (hr.step he hp) (hid.trans_le hn)
    · rcases Nat.eq_or_lt_of_le hn with rfl | hlt
      · rw [hnew]
        exact Or.inl rfl
      · exact gone_of_unmade hbase (hr.step he hp) (hid.trans_le hlt)

/-- **Every run** in which nothing is left behind: where `stopping()` is true, no fiber has code left to run. -/
theorem gone_of_stopping (hbase : cfg.idle ≠ .token)
    (h : (system C cfg).Reach (fun s a => NoIdleTimer s a ∧ NoneLeft s a) s) :
    s.base.stopping = true → ∀ n, Gone (s.fib (.task n)) := by
  induction h using System.Reach.induct with
  | start s h₀ =>
    rw [show s = initial C cfg from h₀]
    exact fun _ n => Or.inl rfl
  | step s a hr he hp ih =>
    intro hs n
    have hr := hr.mono fun _ _ h => h.1
    by_cases hold : s.base.stopping = true
    · exact gone_of_stays hbase hr he hp.1 hold (ih hold n)
    · exact gone_of_begins hbase hr he hp.1 hp.2 (by simpa using hold) hs n

/-- A step that leaves a fiber behind makes `stopping()` true. -/
theorem left_behind {a : Act W E C} (hleft : ¬ NoneLeft s a) :
    (next cfg s a).base.stopping = true ∧
      ∃ n, ((next cfg s a).fib (.task n)).started = true ∧ ((next cfg s a).fib (.task n)).mState ≠ .term := by
  cases a with
  | base a =>
    cases a with
    | decr w =>
      simp only [NoneLeft, Classical.not_imp, not_forall, not_not] at hleft
      obtain ⟨hstop, hq, hact, n, -, hstarted, hready⟩ := hleft
      refine ⟨Sched.stopping_iff.2 ⟨hstop, hq, ?_⟩, n, hstarted, ?_⟩
      · change s.base.mActiveThreadCnt - 1 = 0
        omega
      · change (s.fib (.task n)).mState ≠ .term
        rw [hready]
        simp
    | stopSet e =>
      simp only [NoneLeft, Classical.not_imp, not_forall, not_not] at hleft
      obtain ⟨hq, hact, n, -, hstarted, hready⟩ := hleft
      refine ⟨Sched.stopping_iff.2 ⟨rfl, hq, hact⟩, n, hstarted, ?_⟩
      change (s.fib (.task n)).mState ≠ .term
      rw [hready]
      simp
    | _ => exact absurd trivial hleft
  | _ => exact absurd trivial hleft

/-- **What `stopping()` accounts for.** In a run in which no suspended fiber is left behind, `stopping()` is true only
where every fiber that `run()` has ever resumed is `TERM`. A step that leaves one behind makes `stopping()` true while
that fiber has code left to run. -/
theorem stopping_done (hbase : cfg.idle ≠ .token) :
    (∀ s, (system C cfg).Reach (fun s a => NoIdleTimer s a ∧ NoneLeft s a) s → s.base.stopping = true →
      ∀ n, (s.fib (.task n)).started = true → (s.fib (.task n)).mState = .term) ∧
    ∀ s a, (system C cfg).Reach NoIdleTimer s → (system C cfg).enabled s a → NoIdleTimer s a → ¬ NoneLeft s a →
      (next cfg s a).base.stopping = true ∧
        ∃ n, ((next cfg s a).fib (.task n)).started = true ∧ ((next cfg s a).fib (.task n)).mState ≠ .term := by
  constructor
  · intro s h hs n hstarted
    rcases gone_of_stopping hbase h hs n with hno | hterm
    · rw [hstarted] at hno
      cases hno
    · exact hterm
  · intro s a _ _ _ hleft
    exact left_behind hleft

instance (s : State W E C) (f : FiberId W) : Decidable (s.Suspended f) := inferInstanceAs (Decidable (_ ∧ _))

instance (s : State W E C) (a : Act W E C) : Decidable (NoneLeft s a) := by
  refine decidable_of_iff ((match a with
    | .base (.decr _) => !s.base.mStopping || !s.base.mTasks.isEmpty || !(s.base.mActiveThreadCnt == 1) ||
        decide (∀ n < s.nextId, ¬ s.Suspended (.task n))
    | .base (.stopSet _) => !s.base.mTasks.isEmpty || !(s.base.mActiveThreadCnt == 0) ||
        decide (∀ n < s.nextId, ¬ s.Suspended (.task n))
    | _ => true) = true) ?_
  cases a with
  | base a => cases a <;> simp [NoneLeft, imp_iff_not_or, or_assoc]
  | _ => simp [NoneLeft]

/-- Worker `w` runs the fiber of `taskRun` to its end, and thread `b` calls `stop()`. -/
def endRun (w : Fin 2) (b : Fin 3) : List (Act (Fin 2) (Fin 3) Nat) :=
  [.ret w, .setTerm w, .dropSelf w, .last w, .yswap w, .unlock w, .base (.decr w), .base (.stopCall b),
    .base (.stopCheck b), .base (.stopSet b)]

theorem stopping_done_duo : ∃ s : State (Fin 2) (Fin 3) Nat, s.base.stopping = true ∧
    (s.fib (.task 0)).started = true ∧ (s.fib (.task 0)).mState = .term := by
  have h : (System.exec (system Nat (Sched.duo .plain)) (fun s a => NoIdleTimer s a ∧ NoneLeft s a)
      (initial Nat (Sched.duo .plain)) (taskRun 0 0 1 ++ endRun 0 2)).any
        (fun s => s.base.stopping && (s.fib (.task 0)).started) = true := by
    decide +kernel
  obtain ⟨s, hsteps, hs⟩ := System.exists_exec h
  obtain ⟨hstopping, hstarted⟩ := (Bool.and_eq_true _ _).mp hs
  exact ⟨s, hstopping, hstarted, (stopping_done (by decide)).1 s ⟨_, _, rfl, hsteps⟩ hstopping 0 hstarted⟩

/-- The fiber yields, and nobody schedules it again. -/
theorem stopping_dropped : ∃ s : State (Fin 2) (Fin 3) Nat, (system Nat (Sched.duo .plain)).Reach Always s ∧
    s.base.stopping = true ∧ (s.fib (.task 0)).started = true ∧ (s.fib (.task 0)).mState = .ready := by
  have h : (System.exec (system Nat (Sched.duo .plain)) Always (initial Nat (Sched.duo .plain)) (taskRun 0 0 1 ++
      [.yield 0, .yswap 0, .unlock 0, .base (.decr 0), .base (.stopCall 2), .base (.stopCheck 2),
        .base (.stopSet 2)])).any (fun s => decide (s.base.stopping = true ∧ (s.fib (.task 0)).started = true ∧
          (s.fib (.task 0)).mState = .ready)) = true := by
    decide +kernel
  obtain ⟨s, hsteps, hs⟩ := System.exists_exec h
  exact ⟨s, ⟨_, _, rfl, hsteps⟩, of_decide_eq_true hs⟩

end Sylar.Fibers
