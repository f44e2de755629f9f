import Sylar.Thread.Semaphore

/-!
# Starting the pool

`Scheduler::start` (`scheduler.cpp`) with the constructor `Thread::Thread` and `Thread::run` (`thread.cpp`) of each
thread that it creates, in any interleaving of the thread in `start()` with the children. Every `Thread` has a semaphore
of its own, on which its constructor waits (`Sylar.Semaphore`); the callback is `Scheduler::run`, of which this model
has the sections under `m_mutex`. All calls of `pthread_create` succeed. The names of the threads are left out.

- `Inv`, `inv_next`: what the position of `start()` says of each child, and of its semaphore;
- `handover`: the constructor returns after the child has stored its id, the callback is invoked once, and `start()` is
  not blocked on a child that waits for `m_mutex`.
-/

namespace Sylar.Start

open Trans

/-- A scheduler that creates `threadCnt` threads. `root` is `m_rootThreadId`, if `use_caller`, and `tid i` the kernel's
id of the `i`-th thread. -/
structure Config where
  threadCnt : Nat
  root : Option Int
  tid : Nat → Int
  root_ne : ∀ r ∈ root, r ≠ -1
  tid_ne : ∀ i, tid i ≠ -1

/-- The two threads that use the semaphore of a `Thread`. -/
inductive Side where
  | parent
  | child
deriving DecidableEq, Repr

instance : Fintype Side := ⟨{.parent, .child}, fun t => by cases t <;> simp⟩

/-- Where a child stands: in `Thread::run` up to `callback()`, then in `Scheduler::run` outside its sections (`loop`),
waiting for `m_mutex`, and in a section. -/
inductive ChildPc where
  | unborn
  | setId
  | swap
  | signal
  | call
  | loop
  | lock
  | critical
  | done
deriving DecidableEq, Repr

/-- Where `start()` stands; `create i`, `wait i` and `push i` are in the `i`-th pass of its loop, at `pthread_create`
and at `_semaphore.wait()` in the constructor, and behind the constructor. -/
inductive StartPc where
  | out
  | lock
  | check
  | create (i : Nat)
  | wait (i : Nat)
  | push (i : Nat)
  | unlock
  | done
deriving DecidableEq, Repr

/-- What a thread has: the members of `Thread`, and its position, with the local `callback` of `Thread::run`. `invoked`
is a history. -/
structure Thread (C : Type) where
  id : Int
  mCallback : Option C
  semaphore : Semaphore.State Side
  pc : ChildPc
  callback : Option C
  invoked : List C

/-- Who can hold `m_mutex`. -/
inductive Holder where
  | start
  | child (i : Nat)
deriving DecidableEq, Repr

structure State (C : Type) where
  mStopping : Bool
  mMutex : Option Holder
  mPool : List (Option Nat)
  mThreadIds : List Int
  start : StartPc
  thread : Nat → Thread C
  /-- `assert(m_pool.empty())` has failed, or an empty callback was called. -/
  aborted : Bool

/-- The steps: of the thread in `start()`, of its wait on a semaphore, and of the children. -/
inductive Act where
  | call
  | acquire
  | check
  | create (i : Nat)
  | wait (i : Nat) (a : Semaphore.Act Side)
  | push (i : Nat)
  | unlock
  | setId (i : Nat)
  | swap (i : Nat)
  | signal (i : Nat) (notified : Option Side)
  | invoke (i : Nat)
  | request (i : Nat)
  | enter (i : Nat)
  | leave (i : Nat)
  | finish (i : Nat)

variable {C : Type}

/-- The members of a `Thread` before its constructor runs on. -/
def Thread.fresh (cb : Option C) (pc : ChildPc) : Thread C := ⟨-1, cb, Semaphore.initial Side 0, pc, none, []⟩

namespace State

@[simp] def setThread (s : State C) (i : Nat) (t : Thread C) : State C :=
  { s with thread := Function.update s.thread i t }

@[simp] def childTo (s : State C) (i : Nat) (pc : ChildPc) : State C := s.setThread i { s.thread i with pc := pc }

end State

/-- The head of the loop of `start()`. -/
def loop (cfg : Config) (i : Nat) : StartPc := if i < cfg.threadCnt then .create i else .unlock

/-- After the constructor of the scheduler. -/
def initial (C : Type) (cfg : Config) : State C where
  mStopping := false
  mMutex := none
  mPool := []
  mThreadIds := cfg.root.toList
  start := .out
  thread _ := .fresh none .unborn
  aborted := false

/-- The constructor's steps in its `_semaphore.wait()`. -/
def isWait : Semaphore.Act Side → Prop
  | .wait t | .retest t | .spurious t => t = .parent
  | .signal _ _ => False

/-- Where a step is possible. -/
def guard (s : State C) : Act → Prop
  | .call => s.start = .out
  | .acquire => s.start = .lock ∧ s.mMutex = none
  | .check => s.start = .check
  | .create i => s.start = .create i
  | .wait i a => s.start = .wait i ∧ isWait a ∧ Semaphore.guard (s.thread i).semaphore a
  | .push i => s.start = .push i
  | .unlock => s.start = .unlock
  | .setId i => (s.thread i).pc = .setId
  | .swap i => (s.thread i).pc = .swap
  | .signal i notified => (s.thread i).pc = .signal ∧ Semaphore.guard (s.thread i).semaphore (.signal .child notified)
  | .invoke i => (s.thread i).pc = .call
  | .request i | .finish i => (s.thread i).pc = .loop
  | .enter i => (s.thread i).pc = .lock ∧ s.mMutex = none
  | .leave i => (s.thread i).pc = .critical

/-- What a step does. -/
def next (cfg : Config) (cb : C) (s : State C) : Act → State C
  | .call => { s with start := .lock }
  | .acquire => { s with mMutex := some .start, start := .check }
  | .check =>
    if s.mStopping then { s with start := .unlock }
    else if s.mPool ≠ [] then { s with aborted := true }
    else { s with mPool := List.replicate cfg.threadCnt none, start := loop cfg 0 }
  | .create i => { s.setThread i (.fresh (some cb) .setId) with start := .wait i }
  | .wait i a =>
    let sem := Semaphore.next (s.thread i).semaphore a
    { s.setThread i { s.thread i with semaphore := sem } with
      start := if sem.pc .parent = .out then .push i else .wait i }
  | .push i =>
    { s with
      mPool := s.mPool.set i (some i)
      mThreadIds := s.mThreadIds ++ [(s.thread i).id]
      start := loop cfg (i + 1) }
  | .unlock => { s with mMutex := none, start := .done }
  | .setId i => s.setThread i { s.thread i with id := cfg.tid i, pc := .swap }
  | .swap i =>
    s.setThread i { s.thread i with callback := (s.thread i).mCallback, mCallback := none, pc := .signal }
  | .signal i notified =>
    s.setThread i
      { s.thread i with
        semaphore := Semaphore.next (s.thread i).semaphore (.signal .child notified)
        pc := .call }
  | .invoke i =>
    match (s.thread i).callback with
    | none => { s with aborted := true }
    | some c => s.setThread i { s.thread i with invoked := (s.thread i).invoked ++ [c], pc := .loop }
  | .request i => s.childTo i .lock
  | .enter i => { s.childTo i .critical with mMutex := some (.child i) }
  | .leave i => { s.childTo i .loop with mMutex := none }
  | .finish i => s.childTo i .done

/-- **`start()` and its children.** `cb` is `std::bind(&Scheduler::run, this)`. -/
def system (cfg : Config) (cb : C) : System (State C) Act where
  init s := s = initial C cfg
  enabled s a := s.aborted = false ∧ guard s a
  next := next cfg cb

/-! ## The invariant -/

namespace StartPc

/-- The number of threads whose `pthread_create` is behind `start()`. -/
def created (n : Nat) : StartPc → Nat
  | .out | .lock | .check => 0
  | .create i => i
  | .wait i | .push i => i + 1
  | .unlock | .done => n

/-- The number of constructors that have returned. -/
def returned (n : Nat) : StartPc → Nat
  | .out | .lock | .check => 0
  | .create i | .wait i => i
  | .push i => i + 1
  | .unlock | .done => n

/-- The number of passes of the loop that are complete. -/
def pushed (n : Nat) : StartPc → Nat
  | .out | .lock | .check => 0
  | .create i | .wait i | .push i => i
  | .unlock | .done => n

/-- Between the `lock_guard` of `start()` and its end. -/
def locked : StartPc → Bool
  | .out | .lock | .done => false
  | _ => true

/-- Behind `m_pool.resize`. -/
def resized : StartPc → Bool
  | .out | .lock | .check => false
  | _ => true

end StartPc

namespace ChildPc

/-- The child has signalled. -/
def signalled : ChildPc → Bool
  | .unborn | .setId | .swap | .signal => false
  | _ => true

/-- The child has invoked its callback. -/
def invoking : ChildPc → Bool
  | .unborn | .setId | .swap | .signal | .call => false
  | _ => true

/-- The steps up to the invocation. -/
def left : ChildPc → Nat
  | .setId => 4
  | .swap => 3
  | .signal => 2
  | .call => 1
  | _ => 0

end ChildPc

/-- The members of a `Thread` whose child stands at `pc`. -/
def Data (cfg : Config) (cb : C) (i : Nat) (t : Thread C) : Prop :=
  match t.pc with
  | .unborn => t.invoked = []
  | .setId => t.mCallback = some cb ∧ t.invoked = []
  | .swap => t.id = cfg.tid i ∧ t.mCallback = some cb ∧ t.invoked = []
  | .signal | .call => t.id = cfg.tid i ∧ t.callback = some cb ∧ t.invoked = []
  | _ => t.id = cfg.tid i ∧ t.invoked = [cb]

/-- What is known of the `i`-th thread and its semaphore while `start()` stands at `p`. -/
structure ChildOk (cfg : Config) (cb : C) (p : StartPc) (i : Nat) (t : Thread C) : Prop where
  born : t.pc = .unborn ↔ p.created cfg.threadCnt ≤ i
  data : Data cfg cb i t
  semaphore : Semaphore.Inv 0 t.semaphore
  signals : t.semaphore.signals = t.pc.signalled.toNat
  waits : t.semaphore.waits = if i < p.returned cfg.threadCnt then 1 else 0
  child : t.semaphore.pc .child = .out
  parent : t.semaphore.pc .parent ≠ .out → p = .wait i

/-- `m_pool` after `k` passes of the loop. -/
def poolAt (n k : Nat) : List (Option Nat) := (List.range n).map fun j => if j < k then some j else none

/-- **The invariant.** -/
structure Inv (cfg : Config) (cb : C) (s : State C) : Prop where
  running : s.mStopping = false
  alive : s.aborted = false
  mutex : s.mMutex = some .start ↔ s.start.locked = true
  holder : ∀ i, (s.thread i).pc = .critical ↔ s.mMutex = some (.child i)
  current : ∀ i, s.start = .create i ∨ s.start = .wait i ∨ s.start = .push i → i < cfg.threadCnt
  pool : s.mPool = if s.start.resized then poolAt cfg.threadCnt (s.start.pushed cfg.threadCnt) else []
  ids : s.mThreadIds = cfg.root.toList ++ (List.range (s.start.pushed cfg.threadCnt)).map cfg.tid
  threads : ∀ i, ChildOk cfg cb s.start i (s.thread i)

variable {cfg : Config} {cb : C} {s : State C}

theorem poolAt_zero (n : Nat) : List.replicate n none = poolAt n 0 := by
  simp [poolAt]

theorem poolAt_succ {n k : Nat} (hk : k < n) : (poolAt n k).set k (some k) = poolAt n (k + 1) := by
  apply List.ext_getElem?
  intro j
  rw [List.getElem?_set]
  by_cases hj : k = j
  · subst hj
    simp [poolAt, hk]
  · rw [if_neg hj]
    unfold poolAt
    rw [List.getElem?_map, List.getElem?_map]
    rcases Nat.lt_or_ge j n with hn | hn
    · rw [List.getElem?_range hn]
      have hiff : j < k ↔ j < k + 1 := by omega
      simp only [Option.map_some, hiff]
    · rw [List.getElem?_eq_none (by simpa using hn)]
      rfl

/-- The head of the loop is behind as many passes as its counter says. -/
theorem loop_counts (cfg : Config) {i : Nat} (hi : i ≤ cfg.threadCnt) :
    (loop cfg i).created cfg.threadCnt = i ∧ (loop cfg i).returned cfg.threadCnt = i ∧
      (loop cfg i).pushed cfg.threadCnt = i := by
  unfold loop
  split_ifs with h
  · exact ⟨rfl, rfl, rfl⟩
  · have heq : cfg.threadCnt = i := by omega
    exact ⟨heq, heq, heq⟩

theorem loop_current {i j : Nat} (h : loop cfg i = .create j ∨ loop cfg i = .wait j ∨ loop cfg i = .push j) :
    j < cfg.threadCnt := by
  unfold loop at h
  split_ifs at h with hi
  · rcases h with h | h | h
    · cases h
      exact hi
    · cases h
    · cases h
  · rcases h with h | h | h <;> cases h

theorem loop_locked (i : Nat) : (loop cfg i).locked = true ∧ (loop cfg i).resized = true := by
  unfold loop
  split_ifs <;> exact ⟨rfl, rfl⟩

/-- `start()` moves on between two children. -/
theorem ChildOk.moved {p p' : StartPc} {i : Nat} {t : Thread C} (h : ChildOk cfg cb p i t)
    (hc : p.created cfg.threadCnt ≤ i ↔ p'.created cfg.threadCnt ≤ i)
    (hr : i < p.returned cfg.threadCnt ↔ i < p'.returned cfg.threadCnt) (hp : p = .wait i → p' = .wait i) :
    ChildOk cfg cb p' i t :=
  ⟨h.born.trans hc, h.data, h.semaphore, h.signals, by rw [h.waits]; simp only [hr], h.child,
    fun hn => hp (h.parent hn)⟩

/-- A child moves on, without its semaphore. -/
theorem ChildOk.step {p : StartPc} {i : Nat} {t t' : Thread C} (h : ChildOk cfg cb p i t)
    (hs : t'.semaphore = t.semaphore)
    (hb : t.pc ≠ .unborn ∧ t'.pc ≠ .unborn) (hsig : t'.pc.signalled = t.pc.signalled) (hd : Data cfg cb i t') :
    ChildOk cfg cb p i t' := by
  refine ⟨⟨fun hn => absurd hn hb.2, fun hle => absurd (h.born.2 hle) hb.1⟩, hd, ?_, ?_, ?_, ?_, ?_⟩
  · rw [hs]
    exact h.semaphore
  · rw [hs, hsig]
    exact h.signals
  · rw [hs]
    exact h.waits
  · rw [hs]
    exact h.child
  · rw [hs]
    exact h.parent

/-! ## The steps -/

/-- A child moves on and takes or gives up no mutex. -/
theorem Inv.setThread (h : Inv cfg cb s) {i : Nat} {t : Thread C} (ht : ChildOk cfg cb s.start i t)
    (hc : t.pc = .critical ↔ (s.thread i).pc = .critical) : Inv cfg cb (s.setThread i t) := by
  refine ⟨h.running, h.alive, h.mutex, fun j => ?_, h.current, h.pool, h.ids, fun j => ?_⟩
  · rcases eq_or_ne j i with rfl | hne
    · simpa using hc.trans (h.holder j)
    · simpa [hne] using h.holder j
  · rcases eq_or_ne j i with rfl | hne
    · simpa using ht
    · simpa [hne] using h.threads j

/-- No child is in a section while `start()` holds `m_mutex` or nobody does. -/
theorem Inv.not_critical (h : Inv cfg cb s) (hm : s.mMutex = none ∨ s.mMutex = some .start) (i : Nat) :
    (s.thread i).pc ≠ .critical := by
  intro hi
  rw [(h.holder i).1 hi] at hm
  rcases hm with hm | hm <;> cases hm

theorem inv_call (h : Inv cfg cb s) (hg : guard s .call) : Inv cfg cb (next cfg cb s .call) := by
  have hstart : s.start = .out := hg
  obtain ⟨hrunning, halive, hmutex, hholder, hcurrent, hpool, hids, hthreads⟩ := h
  rw [hstart] at hmutex hpool hids
  refine ⟨hrunning, halive, hmutex, hholder, fun i hi => ?_, hpool, hids, fun i => (hthreads i).moved ?_ ?_ ?_⟩
  · rcases hi with hi | hi | hi <;> cases hi
  · rw [hstart]
    rfl
  · rw [hstart]
    rfl
  · intro hn
    rw [hstart] at hn
    cases hn

theorem inv_acquire (h : Inv cfg cb s) (hg : guard s .acquire) : Inv cfg cb (next cfg cb s .acquire) := by
  obtain ⟨hstart, hfree⟩ := hg
  have hcritical := h.not_critical (Or.inl hfree)
  obtain ⟨hrunning, halive, hmutex, hholder, hcurrent, hpool, hids, hthreads⟩ := h
  rw [hstart] at hpool hids
  refine ⟨hrunning, halive, by simp [next, StartPc.locked], fun i => ?_, fun i hi => ?_, hpool,
    hids, fun i => (hthreads i).moved ?_ ?_ ?_⟩
  · exact ⟨fun hi => absurd hi (hcritical i), fun hi => by cases hi⟩
  · rcases hi with hi | hi | hi <;> cases hi
  · rw [hstart]
    rfl
  · rw [hstart]
    rfl
  · intro hn
    rw [hstart] at hn
    cases hn

theorem inv_check (h : Inv cfg cb s) (hg : guard s .check) : Inv cfg cb (next cfg cb s .check) := by
  have hstart : s.start = .check := hg
  obtain ⟨hrunning, halive, hmutex, hholder, hcurrent, hpool, hids, hthreads⟩ := h
  obtain ⟨hcreated, hreturned, hpushed⟩ := loop_counts cfg (Nat.zero_le _)
  rw [hstart] at hmutex hpool hids
  have hempty : s.mPool = [] := hpool
  have hnext : next cfg cb s .check =
      { s with mPool := List.replicate cfg.threadCnt none, start := loop cfg 0 } := by
    simp [next, hrunning, hempty]
  rw [hnext]
  refine ⟨hrunning, halive, ?_, hholder, fun i hi => loop_current hi, ?_, ?_, fun i => (hthreads i).moved ?_ ?_ ?_⟩
  · rw [(loop_locked 0).1]
    exact hmutex
  · rw [(loop_locked 0).2, if_pos rfl, hpushed]
    exact poolAt_zero _
  · rw [hpushed]
    exact hids
  · rw [hstart, hcreated]
    rfl
  · rw [hstart, hreturned]
    rfl
  · intro hn
    rw [hstart] at hn
    cases hn

theorem inv_create (h : Inv cfg cb s) {i : Nat} (hg : guard s (.create i)) :
    Inv cfg cb (next cfg cb s (.create i)) := by
  have hstart : s.start = .create i := hg
  have hi := h.current i (Or.inl hstart)
  have hmine : s.mMutex = some .start := h.mutex.2 (by rw [hstart]; rfl)
  obtain ⟨hrunning, halive, hmutex, hholder, hcurrent, hpool, hids, hthreads⟩ := h
  rw [hstart] at hmutex hpool hids
  refine ⟨hrunning, halive, hmutex, fun j => ?_, fun j hj => ?_, hpool, hids, fun j => ?_⟩
  · rcases eq_or_ne j i with rfl | hne
    · simp [next, Thread.fresh, hmine]
    · simpa [next, hne] using hholder j
  · rcases hj with hj | hj | hj <;> cases hj
    exact hi
  · rcases eq_or_ne j i with rfl | hne
    · simp only [next, State.setThread, Function.update_self]
      exact ⟨by simp [Thread.fresh, StartPc.created], ⟨rfl, rfl⟩, Semaphore.inv_initial (by omega) (by omega), rfl,
        by simp [Thread.fresh, StartPc.returned, Semaphore.initial], rfl, fun hn => absurd rfl hn⟩
    · simp only [next, State.setThread, Function.update_of_ne hne]
      refine (hthreads j).moved ?_ ?_ ?_
      · rw [hstart]
        change i ≤ j ↔ i + 1 ≤ j
        omega
      · rw [hstart]
        rfl
      · intro hn
        rw [hstart] at hn
        cases hn

/-- What one step in `_semaphore.wait()` does to the history, and to the other side. -/
theorem wait_semaphore {sem : Semaphore.State Side} {a : Semaphore.Act Side} (ha : isWait a)
    (hg : Semaphore.guard sem a) :
    (Semaphore.next sem a).signals = sem.signals ∧ (Semaphore.next sem a).pc .child = sem.pc .child ∧
      (Semaphore.next sem a).waits =
        sem.waits + if (Semaphore.next sem a).pc .parent = .out then 1 else 0 := by
  have hne : Side.child ≠ .parent := by simp
  cases a with
  | wait t | retest t =>
    obtain rfl : t = .parent := ha
    simp only [Semaphore.next, Semaphore.State.test]
    split_ifs <;> simp_all
  | spurious t =>
    obtain rfl : t = .parent := ha
    simp [Semaphore.next]
  | signal t u => cases ha

theorem inv_wait (h : Inv cfg cb s) {i : Nat} {a : Semaphore.Act Side} (hg : guard s (.wait i a)) :
    Inv cfg cb (next cfg cb s (.wait i a)) := by
  obtain ⟨hstart, hwait, hsem⟩ := hg
  have hi := h.current i (Or.inr (Or.inl hstart))
  obtain ⟨hrunning, halive, hmutex, hholder, hcurrent, hpool, hids, hthreads⟩ := h
  obtain ⟨hsignals, hchild, hwaits⟩ := wait_semaphore hwait hsem
  rw [hstart] at hmutex hpool hids
  -- the constructor waits on, or returns
  obtain ⟨p, hp⟩ : ∃ p, p = if (Semaphore.next (s.thread i).semaphore a).pc .parent = .out then StartPc.push i
      else .wait i := ⟨_, rfl⟩
  have hcases : p = .push i ∨ p = .wait i := by
    rw [hp]
    split_ifs
    · exact Or.inl rfl
    · exact Or.inr rfl
  change Inv cfg cb { s.setThread i { s.thread i with semaphore := _ } with start := _ }
  rw [← hp]
  refine ⟨hrunning, halive, ?_, fun j => ?_, fun j hj => ?_, ?_, ?_, fun j => ?_⟩
  · rcases hcases with rfl | rfl <;> exact hmutex
  · rcases eq_or_ne j i with rfl | hne
    · simpa using hholder j
    · simpa [hne] using hholder j
  · rcases hcases with rfl | rfl <;> rcases hj with hj | hj | hj <;> cases hj <;> exact hi
  · rcases hcases with rfl | rfl <;> exact hpool
  · rcases hcases with rfl | rfl <;> exact hids
  · have hj := hthreads j
    rw [hstart] at hj
    rcases eq_or_ne j i with rfl | hne
    · simp only [State.setThread, Function.update_self]
      refine ⟨?_, hj.data, Semaphore.inv_next hj.semaphore hsem ?_, hsignals.trans hj.signals, ?_,
        hchild.trans hj.child, ?_⟩
      · rcases hcases with rfl | rfl <;> exact hj.born
      · cases a with
        | signal t u => cases hwait
        | _ => trivial
      · rw [hwaits, hj.waits, hp]
        by_cases hout : (Semaphore.next (s.thread j).semaphore a).pc .parent = .out
        · rw [if_pos hout, if_pos hout]
          simp [StartPc.returned]
        · rw [if_neg hout, if_neg hout]
          rfl
      · intro hout
        rw [hp, if_neg hout]
    · simp only [State.setThread, Function.update_of_ne hne]
      refine hj.moved ?_ ?_ ?_
      · rcases hcases with rfl | rfl <;> rfl
      · rcases hcases with rfl | rfl
        · change j < i ↔ j < i + 1
          omega
        · rfl
      · intro hn
        cases hn
        exact absurd rfl hne

/-- A `wait()` that is complete has had the child's signal. -/
theorem ChildOk.signalled {p : StartPc} {i : Nat} {t : Thread C} (h : ChildOk cfg cb p i t)
    (hi : i < p.returned cfg.threadCnt) : t.pc.signalled = true := by
  obtain ⟨hcount, hnonneg, -, -⟩ := h.semaphore
  rw [h.signals, h.waits, if_pos hi] at hcount
  cases hs : t.pc.signalled with
  | true => rfl
  | false =>
    rw [hs] at hcount
    simp at hcount
    omega

/-- A child that has signalled has stored its id. -/
theorem ChildOk.stored {p : StartPc} {i : Nat} {t : Thread C} (h : ChildOk cfg cb p i t)
    (hs : t.pc.signalled = true) : t.id = cfg.tid i := by
  have hdata := h.data
  unfold Data at hdata
  split at hdata
  · rename_i hpc
    rw [hpc] at hs
    cases hs
  · rename_i hpc
    rw [hpc] at hs
    cases hs
  · exact hdata.1
  · exact hdata.1
  · exact hdata.1
  · exact hdata.1

theorem inv_push (h : Inv cfg cb s) {i : Nat} (hg : guard s (.push i)) : Inv cfg cb (next cfg cb s (.push i)) := by
  have hstart : s.start = .push i := hg
  have hi := h.current i (Or.inr (Or.inr hstart))
  obtain ⟨hrunning, halive, hmutex, hholder, hcurrent, hpool, hids, hthreads⟩ := h
  obtain ⟨hcreated, hreturned, hpushed⟩ := loop_counts cfg (Nat.succ_le_of_lt hi)
  have hid : (s.thread i).id = cfg.tid i := by
    refine (hthreads i).stored ((hthreads i).signalled ?_)
    rw [hstart]
    exact Nat.lt_succ_self i
  rw [hstart] at hmutex hpool hids
  refine ⟨hrunning, halive, ?_, hholder, fun j hj => loop_current hj, ?_, ?_, fun j => (hthreads j).moved ?_ ?_ ?_⟩
  · rw [show (next cfg cb s (.push i)).start = loop cfg (i + 1) from rfl, (loop_locked (i + 1)).1]
    exact hmutex
  · have hold : s.mPool = poolAt cfg.threadCnt i := hpool
    change s.mPool.set i (some i) = if (loop cfg (i + 1)).resized = true then
      poolAt cfg.threadCnt ((loop cfg (i + 1)).pushed cfg.threadCnt) else []
    rw [if_pos (loop_locked (i + 1)).2, hpushed, hold]
    exact poolAt_succ hi
  · change s.mThreadIds ++ [(s.thread i).id] =
      cfg.root.toList ++ (List.range ((loop cfg (i + 1)).pushed cfg.threadCnt)).map cfg.tid
    rw [hpushed, hids, hid, List.range_succ, List.map_append, List.append_assoc]
    rfl
  · change s.start.created cfg.threadCnt ≤ j ↔ (loop cfg (i + 1)).created cfg.threadCnt ≤ j
    rw [hstart, hcreated]
    rfl
  · change j < s.start.returned cfg.threadCnt ↔ j < (loop cfg (i + 1)).returned cfg.threadCnt
    rw [hstart, hreturned]
    rfl
  · intro hn
    rw [hstart] at hn
    cases hn

theorem inv_unlock (h : Inv cfg cb s) (hg : guard s .unlock) : Inv cfg cb (next cfg cb s .unlock) := by
  have hstart : s.start = .unlock := hg
  have hcritical := h.not_critical (Or.inr (h.mutex.2 (by rw [hstart]; rfl)))
  obtain ⟨hrunning, halive, hmutex, hholder, hcurrent, hpool, hids, hthreads⟩ := h
  rw [hstart] at hpool hids
  refine ⟨hrunning, halive, by simp [next, StartPc.locked], fun i => ?_, fun i hi => ?_, hpool,
    hids, fun i => (hthreads i).moved ?_ ?_ ?_⟩
  · exact ⟨fun hi => absurd hi (hcritical i), fun hi => by cases hi⟩
  · rcases hi with hi | hi | hi <;> cases hi
  · rw [hstart]
    rfl
  · rw [hstart]
    rfl
  · intro hn
    rw [hstart] at hn
    cases hn

/-- What the child's one signal does. -/
theorem signal_semaphore {sem : Semaphore.State Side} {notified : Option Side} (h : Semaphore.Inv 0 sem)
    (hzero : sem.signals = 0) (hchild : sem.pc .child = .out)
    (hg : Semaphore.guard sem (.signal .child notified)) :
    Semaphore.Inv 0 (Semaphore.next sem (.signal .child notified)) ∧
      (Semaphore.next sem (.signal .child notified)).signals = 1 ∧
      (Semaphore.next sem (.signal .child notified)).pc .child = .out := by
  refine ⟨Semaphore.inv_next h hg ?_, ?_, ?_⟩
  · change 0 + (sem.signals : Int) + 1 < 2 ^ 31
    rw [hzero]
    decide
  · change sem.signals + 1 = 1
    rw [hzero]
  · cases notified with
    | none => exact hchild
    | some t =>
      have hblocked : sem.pc t = .blocked := hg.2
      simp only [Semaphore.next]
      rw [Function.update_of_ne, hchild]
      rintro rfl
      rw [hchild] at hblocked
      cases hblocked

/-- The child signals. -/
theorem inv_signal (h : Inv cfg cb s) {i : Nat} {notified : Option Side} (hg : guard s (.signal i notified)) :
    Inv cfg cb (next cfg cb s (.signal i notified)) := by
  obtain ⟨hpc, hsem⟩ := hg
  have hi := h.threads i
  have hdata := hi.data
  have hsignals := hi.signals
  simp only [Data, hpc] at hdata
  rw [hpc] at hsignals
  have hzero : (s.thread i).semaphore.signals = 0 := hsignals
  obtain ⟨hinv, hone, hchild⟩ := signal_semaphore hi.semaphore hzero hi.child hsem
  refine h.setThread ⟨?_, ?_, hinv, hone, hi.waits, hchild, ?_⟩ ?_
  · refine ⟨fun hn => ?_, fun hle => ?_⟩
    · cases hn
    · rw [hi.born.2 hle] at hpc
      cases hpc
  · exact hdata
  · cases notified with
    | none => exact hi.parent
    | some t =>
      have hblocked : (s.thread i).semaphore.pc t = .blocked := hsem.2
      intro _
      refine hi.parent ?_
      cases t with
      | parent =>
        rw [hblocked]
        simp
      | child =>
        rw [hi.child] at hblocked
        cases hblocked
  · rw [hpc]
    simp

theorem inv_invoke (h : Inv cfg cb s) {i : Nat} (hg : guard s (.invoke i)) :
    Inv cfg cb (next cfg cb s (.invoke i)) := by
  have hpc : (s.thread i).pc = .call := hg
  have hi := h.threads i
  have hdata := hi.data
  simp only [Data, hpc] at hdata
  obtain ⟨hid, hcb, hnone⟩ := hdata
  simp only [next, hcb, hnone]
  refine h.setThread (hi.step rfl ⟨by rw [hpc]; simp, by simp⟩ (by rw [hpc]; rfl) ⟨hid, rfl⟩) ?_
  rw [hpc]
  simp

/-- **Every step keeps the invariant.** -/
theorem inv_next (h : Inv cfg cb s) {a : Act} (hg : guard s a) : Inv cfg cb (next cfg cb s a) := by
  cases a with
  | call => exact inv_call h hg
  | acquire => exact inv_acquire h hg
  | check => exact inv_check h hg
  | create i => exact inv_create h hg
  | wait i a => exact inv_wait h hg
  | push i => exact inv_push h hg
  | unlock => exact inv_unlock h hg
  | signal i notified => exact inv_signal h hg
  | invoke i => exact inv_invoke h hg
  | setId i =>
    have hpc : (s.thread i).pc = .setId := hg
    have hdata := (h.threads i).data
    simp only [Data, hpc] at hdata
    exact h.setThread ((h.threads i).step rfl ⟨by rw [hpc]; simp, by simp⟩ (by rw [hpc]; rfl) ⟨rfl, hdata⟩)
      (by rw [hpc]; simp)
  | swap i =>
    have hpc : (s.thread i).pc = .swap := hg
    have hdata := (h.threads i).data
    simp only [Data, hpc] at hdata
    exact h.setThread ((h.threads i).step rfl ⟨by rw [hpc]; simp, by simp⟩ (by rw [hpc]; rfl) hdata)
      (by rw [hpc]; simp)
  | request i | finish i =>
    have hpc : (s.thread i).pc = .loop := hg
    have hdata := (h.threads i).data
    simp only [Data, hpc] at hdata
    exact h.setThread ((h.threads i).step rfl ⟨by rw [hpc]; simp, by simp⟩ (by rw [hpc]; rfl) hdata)
      (by rw [hpc]; simp)
  | enter i =>
    obtain ⟨hpc, hfree⟩ := hg
    have hdata := (h.threads i).data
    simp only [Data, hpc] at hdata
    have hlocked : s.start.locked ≠ true := by
      intro hn
      rw [h.mutex.2 hn] at hfree
      cases hfree
    have hcritical := h.not_critical (Or.inl hfree)
    obtain ⟨hrunning, halive, hmutex, hholder, hcurrent, hpool, hids, hthreads⟩ := h
    refine ⟨hrunning, halive, ?_, fun j => ?_, hcurrent, hpool, hids, fun j => ?_⟩
    · refine ⟨fun hn => ?_, fun hn => absurd hn hlocked⟩
      cases hn
    · rcases eq_or_ne j i with rfl | hne
      · simp [next]
      · simp only [next, State.childTo, State.setThread, Function.update_of_ne hne]
        refine ⟨fun hj => absurd hj (hcritical j), fun hj => ?_⟩
        cases hj
        exact absurd rfl hne
    · rcases eq_or_ne j i with rfl | hne
      · simp only [next, State.childTo, State.setThread, Function.update_self]
        exact (hthreads j).step rfl ⟨by rw [hpc]; simp, by simp⟩ (by rw [hpc]; rfl) hdata
      · simpa [next, hne] using hthreads j
  | leave i =>
    have hpc : (s.thread i).pc = .critical := hg
    have hdata := (h.threads i).data
    simp only [Data, hpc] at hdata
    have hmine := (h.holder i).1 hpc
    obtain ⟨hrunning, halive, hmutex, hholder, hcurrent, hpool, hids, hthreads⟩ := h
    have hlocked : s.start.locked ≠ true := by
      intro hn
      rw [hmutex.2 hn] at hmine
      cases hmine
    refine ⟨hrunning, halive, ?_, fun j => ?_, hcurrent, hpool, hids, fun j => ?_⟩
    · refine ⟨fun hn => ?_, fun hn => absurd hn hlocked⟩
      cases hn
    · rcases eq_or_ne j i with rfl | hne
      · simp [next]
      · simp only [next, State.childTo, State.setThread, Function.update_of_ne hne]
        refine ⟨fun hj => ?_, fun hj => by cases hj⟩
        have hother := (hholder j).1 hj
        rw [hmine] at hother
        cases hother
        exact absurd rfl hne
    · rcases eq_or_ne j i with rfl | hne
      · simp only [next, State.childTo, State.setThread, Function.update_self]
        exact (hthreads j).step rfl ⟨by rw [hpc]; simp, by simp⟩ (by rw [hpc]; rfl) hdata
      · simpa [next, hne] using hthreads j

theorem inv_initial (cfg : Config) (cb : C) : Inv cfg cb (initial C cfg) := by
  refine ⟨rfl, rfl, by simp [initial, StartPc.locked], fun i => ?_, fun i hi => ?_, rfl, ?_, fun i => ?_⟩
  · simp [initial, Thread.fresh]
  · rcases hi with hi | hi | hi <;> cases hi
  · simp [initial, StartPc.pushed]
  · exact ⟨by simp [initial, Thread.fresh, StartPc.created], rfl, Semaphore.inv_initial (by omega) (by omega), rfl, rfl,
      rfl, fun hn => absurd rfl hn⟩

theorem inv_reach (h : (system cfg cb).Reach Always s) : Inv cfg cb s := by
  apply h.inv
  · rintro s rfl
    exact inv_initial cfg cb
  · intro s a hs he _
    exact inv_next hs he.2

/-! ## What it says -/

/-- The child that makes the step. -/
def Act.child : Act → Option Nat
  | .setId i | .swap i | .signal i _ | .invoke i | .request i | .enter i | .leave i | .finish i => some i
  | _ => none

/-- The callbacks that a child has invoked. -/
theorem Inv.invoked (h : Inv cfg cb s) (i : Nat) :
    (s.thread i).invoked = if (s.thread i).pc.invoking then [cb] else [] := by
  have hdata := (h.threads i).data
  cases hpc : (s.thread i).pc <;> simp only [Data, hpc] at hdata <;> simp [ChildPc.invoking, hdata]

/-- A child on the way to its callback can always go on. -/
theorem child_step (h : Inv cfg cb s) {i : Nat} (hleft : 0 < (s.thread i).pc.left) :
    ∃ a : Act, a.child = some i ∧ guard s a ∧
      ((next cfg cb s a).thread i).pc ≠ .unborn ∧ ((next cfg cb s a).thread i).pc.left < (s.thread i).pc.left := by
  have hdata := (h.threads i).data
  cases hpc : (s.thread i).pc with
  | setId => exact ⟨.setId i, rfl, hpc, by simp [next], by simp [next, ChildPc.left]⟩
  | swap => exact ⟨.swap i, rfl, hpc, by simp [next], by simp [next, ChildPc.left]⟩
  | signal =>
    have hchild := (h.threads i).child
    by_cases hblocked : (s.thread i).semaphore.pc .parent = .blocked
    · exact ⟨.signal i (some .parent), rfl, ⟨hpc, hchild, hblocked⟩, by simp [next], by simp [next, ChildPc.left]⟩
    · refine ⟨.signal i none, rfl, ⟨hpc, hchild, fun t => ?_⟩, by simp [next], by simp [next, ChildPc.left]⟩
      cases t with
      | parent => exact hblocked
      | child =>
        rw [hchild]
        simp
  | call =>
    simp only [Data, hpc] at hdata
    exact ⟨.invoke i, rfl, hpc, by simp [next, hdata.2.1], by simp [next, hdata.2.1, ChildPc.left]⟩
  | unborn | loop | lock | critical | done =>
    rw [hpc] at hleft
    cases hleft

/-- A child that exists invokes its callback by its own steps. -/
theorem child_invokes (h : (system cfg cb).Reach Always s) {i : Nat} (hborn : (s.thread i).pc ≠ .unborn) :
    ∃ as t, (system cfg cb).Steps Always s as t ∧ (∀ a ∈ as, a.child = some i) ∧ (t.thread i).invoked = [cb] := by
  induction hn : (s.thread i).pc.left using Nat.strongRecOn generalizing s with
  | _ n ih =>
    have hinv := inv_reach h
    rcases Nat.eq_zero_or_pos (s.thread i).pc.left with hzero | hpos
    · refine ⟨[], s, .nil s, by simp, ?_⟩
      rw [hinv.invoked i, if_pos]
      cases hpc : (s.thread i).pc with
      | unborn => exact absurd hpc hborn
      | setId | swap | signal | call =>
        rw [hpc] at hzero
        cases hzero
      | loop | lock | critical | done => rfl
    · obtain ⟨a, ha, hg, hborn', hlt⟩ := child_step hinv hpos
      have hen : (system cfg cb).enabled s a := ⟨hinv.alive, hg⟩
      obtain ⟨as, t, hsteps, has, hinvoked⟩ := ih _ (by rw [← hn]; exact hlt) (h.step hen trivial) hborn' rfl
      refine ⟨a :: as, t, .cons hen trivial hsteps, fun b hb => ?_, hinvoked⟩
      rcases List.mem_cons.1 hb with rfl | hb
      · exact ha
      · exact has b hb

/-- Where the child has signalled, the constructor is not blocked and goes on. -/
theorem not_blocked (h : Inv cfg cb s) {i : Nat} (hstart : s.start = .wait i)
    (hs : (s.thread i).pc.signalled = true) : (s.thread i).semaphore.pc .parent ≠ .blocked ∧
      ∃ a, guard s (.wait i a) ∧ (next cfg cb s (.wait i a)).start = .push i := by
  have hi := h.threads i
  obtain ⟨hcount, -, -, hcovered⟩ := hi.semaphore
  rw [hi.signals, hs, hi.waits, hstart, if_neg (by simp [StartPc.returned])] at hcount
  have hone : (s.thread i).semaphore.count = 1 := hcount
  have htest : ∀ a, a = .wait .parent ∨ a = .retest .parent → (next cfg cb s (.wait i a)).start = .push i := by
    rintro a (rfl | rfl) <;> simp [next, Semaphore.next, Semaphore.State.test, hone]
  have hnot : (s.thread i).semaphore.pc .parent ≠ .blocked := by
    intro hblocked
    -- nobody is there to be woken
    have hle := hcovered ⟨.parent, hblocked⟩
    have hpos : 0 < (s.thread i).semaphore.woken := by omega
    obtain ⟨t, ht⟩ := Counting.exists_of_count_pos hpos
    cases t with
    | parent =>
      rw [hblocked] at ht
      cases ht
    | child =>
      rw [hi.child] at ht
      cases ht
  refine ⟨hnot, ?_⟩
  cases hpc : (s.thread i).semaphore.pc .parent with
  | out => exact ⟨.wait .parent, ⟨hstart, rfl, hpc⟩, htest _ (Or.inl rfl)⟩
  | woken => exact ⟨.retest .parent, ⟨hstart, rfl, hpc⟩, htest _ (Or.inr rfl)⟩
  | blocked => exact absurd hpc hnot

/-- `start()` is never stuck: it goes on, or it is blocked on a child that does. -/
theorem start_goes_on (h : Inv cfg cb s) (hstart : s.start ≠ .done) : ∃ a, guard s a ∧
    (a.child = none ∨ ∃ i, s.start = .wait i ∧ (s.thread i).semaphore.pc .parent = .blocked ∧ a.child = some i) := by
  cases hpc : s.start with
  | out => exact ⟨.call, hpc, Or.inl rfl⟩
  | lock =>
    refine ⟨.acquire, ⟨hpc, ?_⟩, Or.inl rfl⟩
    cases hm : s.mMutex with
    | none => rfl
    | some o =>
      cases o with
      | start =>
        have hlocked := h.mutex.1 hm
        rw [hpc] at hlocked
        cases hlocked
      | child i =>
        -- no child exists yet
        have hunborn := (h.threads i).born.2 (by rw [hpc]; exact Nat.zero_le i)
        rw [(h.holder i).2 hm] at hunborn
        cases hunborn
  | check => exact ⟨.check, hpc, Or.inl rfl⟩
  | create i => exact ⟨.create i, hpc, Or.inl rfl⟩
  | push i => exact ⟨.push i, hpc, Or.inl rfl⟩
  | unlock => exact ⟨.unlock, hpc, Or.inl rfl⟩
  | done => exact absurd hpc hstart
  | wait i =>
    cases hsem : (s.thread i).semaphore.pc .parent with
    | out => exact ⟨.wait i (.wait .parent), ⟨hpc, rfl, hsem⟩, Or.inl rfl⟩
    | woken => exact ⟨.wait i (.retest .parent), ⟨hpc, rfl, hsem⟩, Or.inl rfl⟩
    | blocked =>
      have hleft : 0 < (s.thread i).pc.left := by
        cases hchild : (s.thread i).pc with
        | unborn =>
          have hle := (h.threads i).born.1 hchild
          rw [hpc] at hle
          exact absurd hle (Nat.not_succ_le_self i)
        | setId | swap | signal => simp [ChildPc.left]
        | call | loop | lock | critical | done =>
          exact absurd hsem (not_blocked h hpc (by rw [hchild]; rfl)).1
      obtain ⟨a, ha, hg, -⟩ := child_step h hleft
      exact ⟨a, hg, Or.inr ⟨i, rfl, hsem, ha⟩⟩

/-- **Starting the pool hands over correctly.** A constructor that has returned has the child's id; `start()` leaves the
root's id and those of the children in order; every child invokes its callback once; and while `start()`, which holds
`m_mutex`, is in the constructor of a child that waits for `m_mutex`, it is not blocked, and its next step ends the
wait. -/
theorem handover (cfg : Config) (cb : C) {s : State C} (h : (system cfg cb).Reach Always s) :
    (∀ i < s.start.returned cfg.threadCnt, (s.thread i).id = cfg.tid i) ∧
    (s.start = .done →
      s.mThreadIds = cfg.root.toList ++ (List.range cfg.threadCnt).map cfg.tid ∧ -1 ∉ s.mThreadIds) ∧
    (∀ i, ((s.thread i).invoked = if (s.thread i).pc.invoking then [cb] else []) ∧ ((s.thread i).pc ≠ .unborn →
      ∃ as t, (system cfg cb).Steps Always s as t ∧ (∀ a ∈ as, a.child = some i) ∧ (t.thread i).invoked = [cb])) ∧
    (s.mMutex = some .start ↔ s.start.locked = true) ∧
    ∀ i, s.start = .wait i → (s.thread i).pc = .lock → (s.thread i).semaphore.pc .parent ≠ .blocked ∧
      ∃ a, guard s (.wait i a) ∧ (next cfg cb s (.wait i a)).start = .push i := by
  have hinv := inv_reach h
  refine ⟨fun i hi => ?_, fun hdone => ?_, fun i => ⟨hinv.invoked i, child_invokes h⟩, hinv.mutex, fun i hi hpc => ?_⟩
  · exact (hinv.threads i).stored ((hinv.threads i).signalled hi)
  · have hids := hinv.ids
    rw [hdone] at hids
    refine ⟨hids, fun hmem => ?_⟩
    rw [hids] at hmem
    rcases List.mem_append.1 hmem with hroot | hchild
    · exact cfg.root_ne _ (by simpa using hroot) rfl
    · obtain ⟨i, -, hi⟩ := List.mem_map.1 hchild
      exact cfg.tid_ne i hi
  · exact not_blocked hinv hi (by rw [hpc]; rfl)

instance (a : Semaphore.Act Side) : Decidable (isWait a) := by
  cases a <;> dsimp only [isWait] <;> infer_instance

instance (s : State C) (a : Act) : Decidable (guard s a) := by
  cases a <;> dsimp only [guard] <;> infer_instance

instance (cfg : Config) (cb : C) (s : State C) (a : Act) : Decidable ((system cfg cb).enabled s a) :=
  inferInstanceAs (Decidable (_ ∧ guard s a))

/-- The caller thread with the id `9`, and `n` more threads. -/
def pool (n : Nat) : Config where
  threadCnt := n
  root := some 9
  tid i := i + 10
  root_ne := by simp
  tid_ne i := by omega

/-- The constructor of the `i`-th thread blocks, is woken without a signal, blocks again, and returns behind the child's
signal, with the child waiting for `m_mutex`. -/
def slowRun (i : Nat) : List Act :=
  [.create i, .wait i (.wait .parent), .wait i (.spurious .parent), .wait i (.retest .parent), .setId i, .swap i,
    .signal i (some .parent), .invoke i, .request i, .wait i (.retest .parent), .push i]

/-- The child is done with its signal before the constructor waits. -/
def quickRun (i : Nat) : List Act :=
  [.create i, .setId i, .swap i, .signal i none, .wait i (.wait .parent), .push i]

theorem handover_pair : ∃ s : State Unit, s.start = .done ∧ s.mThreadIds = [9, 10, 11] ∧
    (s.thread 0).invoked = [()] ∧ (s.thread 1).invoked = [] := by
  have h : (System.exec (system (pool 2) ()) Always (initial Unit (pool 2))
      ([.call, .acquire, .check] ++ slowRun 0 ++ quickRun 1 ++ [.unlock])).isSome = true := by
    decide
  obtain ⟨-, hids, hinvoked, -⟩ := handover (pool 2) () (System.reach_exec rfl h)
  exact ⟨_, rfl, (hids rfl).1, (hinvoked 0).1, (hinvoked 1).1⟩

end Sylar.Start
