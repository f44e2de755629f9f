import Sylar.Thread.Start

/-!
# Joining the pool

`Scheduler::stop` (`scheduler.cpp`) and `Thread::join` (`thread.cpp`) next to `start()`: the system of `Start` with the
threads `E` that call `stop()`, any number of them and any number of times. `m_stopping` is set without `m_mutex`; the
sections of `stop()`, in `stopping()` and at the swap, are one step each, where nobody holds it. Of `stopping()` the
model has `m_stopping`; whether a task is queued or a worker active is left open (`quiet`), and so is what `run()` does,
also on the calling thread. Creating a thread may fail (`throws`).

- `Inv`, `inv_next`: where the threads are that `start()` has created, if all creations succeed;
- `joined_once`: behind `start()` and all `stop()` calls every thread has been joined once;
- `failed_start`: behind a `start()` that has thrown, `stop()` calls `join()` through a null entry, or never returns.
-/

namespace Sylar.Join

open Trans

/-- A scheduler with the thread that has constructed it. -/
structure Config (E : Type) extends Start.Config where
  owner : E

/-- Where a thread stands in `stop()`; `vec` is what is left of the loop over the local `vec`. -/
inductive StopPc where
  | out
  | check
  | set
  | assertion
  | tickle
  | resume
  | swap
  | join (vec : List (Option Nat))
deriving DecidableEq, Repr

/-- `joins`, the `join()` calls with their callers, `returned`, the number of `stop()` calls that have returned, and
`failed`, the creation that has thrown, are histories. -/
structure State (C E : Type) where
  base : Start.State C
  stop : E → StopPc
  joins : List (E × Nat)
  returned : Nat
  failed : Option Nat
  /-- `join()` was called through a null entry. -/
  nullJoin : Bool
  /-- The assertion on `getRunningScheduler()` has failed. -/
  asserted : Bool

/-- The steps: of `start()` and the children, the exception of the `i`-th constructor, and the steps of `stop()`. -/
inductive Act (E : Type) where
  | base (a : Start.Act)
  | throws (i : Nat)
  | stopCall (e : E)
  | stopCheck (e : E) (quiet : Bool)
  | stopSet (e : E)
  | stopAssert (e : E)
  | stopTickle (e : E)
  | stopResume (e : E)
  | stopSwap (e : E)
  | stopJoin (e : E)
  | stopEnd (e : E)

variable {C E : Type} [DecidableEq E]

/-- After the constructor of the scheduler. -/
def initial (C : Type) (cfg : Config E) : State C E :=
  ⟨Start.initial C cfg.toConfig, fun _ => .out, [], 0, none, false, false⟩

def State.stopTo (s : State C E) (e : E) (pc : StopPc) : State C E := { s with stop := Function.update s.stop e pc }

/-- Where a step is possible. A `join()` waits for the thread to end. -/
def guard (s : State C E) : Act E → Prop
  | .base a => Start.guard s.base a
  | .throws i => s.base.start = .create i
  | .stopCall e => s.stop e = .out
  | .stopCheck e _ => s.stop e = .check ∧ s.base.mMutex = none
  | .stopSet e => s.stop e = .set
  | .stopAssert e => s.stop e = .assertion
  | .stopTickle e => s.stop e = .tickle
  | .stopResume e => s.stop e = .resume
  | .stopSwap e => s.stop e = .swap ∧ s.base.mMutex = none
  | .stopJoin e =>
    match s.stop e with
    | .join (none :: _) => True
    | .join (some i :: _) => (s.base.thread i).pc = .done
    | _ => False
  | .stopEnd e => s.stop e = .join []

/-- What a step does. The exception leaves `start()` through its `lock_guard`. -/
def next (cfg : Config E) (cb : C) (s : State C E) : Act E → State C E
  | .base a => { s with base := Start.next cfg.toConfig cb s.base a }
  | .throws i => { s with base := { s.base with mMutex := none, start := .done }, failed := some i }
  | .stopCall e => s.stopTo e .check
  | .stopCheck e quiet =>
    if s.base.mStopping && quiet then { s.stopTo e .out with returned := s.returned + 1 } else s.stopTo e .set
  | .stopSet e => { s.stopTo e .assertion with base := { s.base with mStopping := true } }
  | .stopAssert e =>
    if cfg.root.isSome = true ↔ e = cfg.owner then s.stopTo e .tickle else { s with asserted := true }
  | .stopTickle e => s.stopTo e .resume
  | .stopResume e => s.stopTo e .swap
  | .stopSwap e => { s.stopTo e (.join s.base.mPool) with base := { s.base with mPool := [] } }
  | .stopJoin e =>
    match s.stop e with
    | .join (none :: _) => { s with nullJoin := true }
    | .join (some i :: vec) => { s.stopTo e (.join vec) with joins := s.joins ++ [(e, i)] }
    | _ => s
  | .stopEnd e => { s.stopTo e .out with returned := s.returned + 1 }

/-- **`start()`, its children and the `stop()` calls.** -/
def system (cfg : Config E) (cb : C) : System (State C E) (Act E) where
  init s := s = initial C cfg
  enabled s a := s.base.aborted = false ∧ s.nullJoin = false ∧ s.asserted = false ∧ guard s a
  next := next cfg cb

/-- All thread creations succeed. -/
def Creates : State C E → Act E → Prop
  | _, .throws _ => False
  | _, _ => True

/-! ## Where the threads are -/

/-- A call that is still to swap. -/
def StopPc.pending : StopPc → Bool
  | .assertion | .tickle | .resume | .swap => true
  | _ => false

/-- Behind `m_stopping = true`. -/
def StopPc.late : StopPc → Bool
  | .out | .check | .set => false
  | _ => true

/-- The state of `start()` as it would be without the `stop()` calls, with its pool. -/
def State.whole (s : State C E) (pool : List (Option Nat)) : Start.State C :=
  { s.base with mStopping := false, mPool := pool }

/-- No `stop()` call has got a thread. -/
structure Untaken (s : State C E) : Prop where
  joins : s.joins = []
  vecs : ∀ e vec, s.stop e = .join vec → vec = []

/-- The call of `e` has got the whole pool, and is still to join `rest`. -/
structure Taken (n : Nat) (s : State C E) (e : E) (rest : List (Option Nat)) : Prop where
  start : s.base.start = .done
  pool : s.base.mPool = []
  all : s.joins.map (fun x => some x.2) ++ rest = Start.poolAt n n
  vecs : ∀ e' vec, s.stop e' = .join vec → vec = [] ∨ e' = e ∧ vec = rest
  joining : rest ≠ [] → s.stop e = .join rest

/-- `start()` has found `m_stopping` set, and creates no thread. -/
structure Refused (s : State C E) : Prop where
  start : s.base.start = .unlock ∨ s.base.start = .done
  pool : s.base.mPool = []
  unborn : ∀ i, (s.base.thread i).pc = .unborn

/-- **What `start()` has done**, and who has its threads. -/
inductive Phase (cfg : Config E) (cb : C) (s : State C E) : Prop where
  | refused (hstart : Refused s) (hs : Untaken s)
  | untaken (hstart : Start.Inv cfg.toConfig cb (s.whole s.base.mPool)) (hs : Untaken s)
  | taken (e : E) (rest : List (Option Nat))
      (hstart : Start.Inv cfg.toConfig cb (s.whole (Start.poolAt cfg.threadCnt cfg.threadCnt)))
      (hs : Taken cfg.threadCnt s e rest)

/-- **The invariant.** Where threads are in `m_pool` and `m_stopping` is set, a call is still to swap. -/
structure Inv (cfg : Config E) (cb : C) (s : State C E) : Prop where
  phase : Phase cfg cb s
  pending : s.base.mStopping = true → s.base.mPool ≠ [] → ∃ e, (s.stop e).pending = true
  late : ∀ e, (s.stop e).late = true → s.base.mStopping = true
  returned : 0 < s.returned → s.base.mStopping = true

variable {cfg : Config E} {cb : C} {s : State C E} {e : E}

omit [DecidableEq E] in
theorem inv_initial (cfg : Config E) (cb : C) : Inv cfg cb (initial C cfg) where
  phase := .untaken (Start.inv_initial cfg.toConfig cb) ⟨rfl, fun e vec h => by cases h⟩
  pending h := by cases h
  late e h := by cases h
  returned h := absurd h (Nat.lt_irrefl 0)

/-! ## The steps of `start()` and its children -/

omit [DecidableEq E] in
theorem guard_whole {pool : List (Option Nat)} {a : Start.Act} (hg : Start.guard s.base a) :
    Start.guard (s.whole pool) a := by
  cases a <;> exact hg

omit [DecidableEq E] in
/-- But for the test of `m_stopping`, `start()` and its children go on as if there were no `stop()` calls. -/
theorem next_whole {a : Start.Act} (hcheck : a = .check → s.base.mStopping = false) :
    Start.next cfg.toConfig cb (s.whole s.base.mPool) a =
      State.whole { s with base := Start.next cfg.toConfig cb s.base a }
        (Start.next cfg.toConfig cb s.base a).mPool := by
  cases a with
  | check =>
    have hrun := hcheck rfl
    by_cases hpool : s.base.mPool = [] <;> simp [Start.next, State.whole, hrun, hpool]
  | invoke i =>
    simp only [Start.next, State.whole]
    split <;> rfl
  | _ => rfl

omit [DecidableEq E] in
/-- Behind `start()` only the children move, and `m_pool` stays as it is. -/
theorem next_done (pool : List (Option Nat)) {a : Start.Act} (hg : Start.guard s.base a)
    (hdone : s.base.start = .done) :
    Start.next cfg.toConfig cb (s.whole pool) a =
        State.whole { s with base := Start.next cfg.toConfig cb s.base a } pool ∧
      (Start.next cfg.toConfig cb s.base a).mPool = s.base.mPool ∧
      (Start.next cfg.toConfig cb s.base a).start = .done := by
  have hother : ∀ {p}, p ≠ Start.StartPc.done → s.base.start ≠ p := by
    rintro p hp rfl
    exact hp hdone
  cases a with
  | call | check | create i | push i | unlock => exact absurd hg (hother (by simp))
  | acquire | wait i a => exact absurd hg.1 (hother (by simp))
  | invoke i =>
    simp only [Start.next, State.whole]
    split
    · exact ⟨rfl, rfl, hdone⟩
    · exact ⟨rfl, rfl, hdone⟩
  | _ => exact ⟨rfl, rfl, hdone⟩

omit [DecidableEq E] in
theorem mStopping_base {b : Start.State C} (a : Start.Act) :
    (Start.next cfg.toConfig cb b a).mStopping = b.mStopping := by
  cases a with
  | check =>
    simp only [Start.next]
    split_ifs <;> rfl
  | invoke i =>
    simp only [Start.next]
    split <;> rfl
  | _ => rfl

omit [DecidableEq E] in
/-- Once `m_stopping` is set, `start()` does not fill `m_pool`. -/
theorem mPool_base {b : Start.State C} {a : Start.Act} (hstop : b.mStopping = true)
    (h : (Start.next cfg.toConfig cb b a).mPool ≠ []) : b.mPool ≠ [] := by
  cases a with
  | check => simpa only [Start.next, hstop, if_true] using h
  | push i =>
    intro hnil
    exact h (by simp [Start.next, hnil])
  | invoke i =>
    simp only [Start.next] at h
    split at h <;> exact h
  | _ => exact h

omit [DecidableEq E] in
/-- `start()` tests `m_stopping` before it creates a thread. -/
theorem refused_check (h : Start.Inv cfg.toConfig cb (s.whole s.base.mPool)) (hs : s.base.start = .check)
    (hstop : s.base.mStopping = true) : Refused { s with base := Start.next cfg.toConfig cb s.base .check } := by
  have hpool := h.pool
  have hborn := fun i => (h.threads i).born
  simp only [State.whole, hs] at hpool hborn
  have hnext : Start.next cfg.toConfig cb s.base .check = { s.base with start := .unlock } := by
    simp only [Start.next, hstop, if_true]
  rw [hnext]
  exact ⟨Or.inl rfl, hpool, fun i => (hborn i).mpr (Nat.zero_le i)⟩

omit [DecidableEq E] in
theorem Refused.base (h : Refused s) {a : Start.Act} (hg : Start.guard s.base a) :
    Refused { s with base := Start.next cfg.toConfig cb s.base a } := by
  have hunborn := h.unborn
  have hchild : ∀ i p, p ≠ Start.ChildPc.unborn → (s.base.thread i).pc ≠ p := by
    rintro i p hp rfl
    exact hp (hunborn i)
  have hstart : ∀ p, p ≠ Start.StartPc.unlock → p ≠ .done → s.base.start ≠ p := by
    rintro p hu hd rfl
    rcases h.start with hs | hs
    · exact hu hs
    · exact hd hs
  cases a with
  | unlock => exact ⟨Or.inr rfl, h.pool, hunborn⟩
  | call | check | create i | push i => exact absurd hg (hstart _ (by simp) (by simp))
  | acquire | wait i a => exact absurd hg.1 (hstart _ (by simp) (by simp))
  | setId i | swap i | invoke i | request i | leave i | finish i => exact absurd hg (hchild i _ (by simp))
  | signal i n | enter i => exact absurd hg.1 (hchild i _ (by simp))

omit [DecidableEq E] in
theorem Phase.base (h : Phase cfg cb s) {a : Start.Act} (hg : Start.guard s.base a) :
    Phase cfg cb { s with base := Start.next cfg.toConfig cb s.base a } := by
  cases h with
  | refused hstart hs => exact .refused (hstart.base hg) ⟨hs.joins, hs.vecs⟩
  | untaken hstart hs =>
    by_cases hcheck : a = .check ∧ s.base.mStopping = true
    · obtain ⟨rfl, hstop⟩ := hcheck
      exact .refused (refused_check hstart hg hstop) ⟨hs.joins, hs.vecs⟩
    · have hinv := Start.inv_next hstart (guard_whole hg)
      have hrun : a = .check → s.base.mStopping = false := fun ha => Bool.eq_false_iff.mpr fun hn => hcheck ⟨ha, hn⟩
      rw [next_whole hrun] at hinv
      exact .untaken hinv ⟨hs.joins, hs.vecs⟩
  | taken e rest hstart hs =>
    have hinv := Start.inv_next hstart (guard_whole hg)
    obtain ⟨hnext, hpool, hdone⟩ := next_done (Start.poolAt cfg.threadCnt cfg.threadCnt) hg hs.start
    rw [hnext] at hinv
    exact .taken e rest hinv ⟨hdone, hpool.trans hs.pool, hs.all, hs.vecs, hs.joining⟩

/-! ## The steps of `stop()` -/

/-- A call moves on, with nothing to join before and behind. -/
theorem Phase.move (h : Phase cfg cb s) {t : State C E} {pc : StopPc} (hwhole : ∀ pool, t.whole pool = s.whole pool)
    (hpool : t.base.mPool = s.base.mPool) (hjoins : t.joins = s.joins) (hstop : t.stop = Function.update s.stop e pc)
    (hold : ∀ vec, s.stop e = .join vec → vec = []) (hnew : ∀ vec, pc = .join vec → vec = []) : Phase cfg cb t := by
  have hstart : t.base.start = s.base.start := by
    have h := congrArg Start.State.start (hwhole [])
    exact h
  have hthread : t.base.thread = s.base.thread := by
    have h := congrArg Start.State.thread (hwhole [])
    exact h
  have hvec : ∀ e' vec, t.stop e' = .join vec → vec = [] ∨ s.stop e' = .join vec := by
    intro e' vec hv
    rw [hstop] at hv
    rcases eq_or_ne e' e with rfl | hne
    · rw [Function.update_self] at hv
      exact Or.inl (hnew vec hv)
    · rw [Function.update_of_ne hne] at hv
      exact Or.inr hv
  have huntaken : Untaken s → Untaken t := fun hs =>
    ⟨hjoins.trans hs.joins, fun e' vec hv => (hvec e' vec hv).elim id (hs.vecs e' vec)⟩
  cases h with
  | refused hr hs =>
    refine .refused ⟨?_, hpool.trans hr.pool, ?_⟩ (huntaken hs)
    · rw [hstart]
      exact hr.start
    · rw [hthread]
      exact hr.unborn
  | untaken hinv hs =>
    refine .untaken ?_ (huntaken hs)
    rw [hwhole, hpool]
    exact hinv
  | taken e₀ rest hinv hs =>
    refine .taken e₀ rest ?_ ⟨hstart.trans hs.start, hpool.trans hs.pool, ?_, ?_, fun hne => ?_⟩
    · rw [hwhole]
      exact hinv
    · rw [hjoins]
      exact hs.all
    · exact fun e' vec hv => (hvec e' vec hv).elim Or.inl (hs.vecs e' vec)
    · have hjoin := hs.joining hne
      have hother : e₀ ≠ e := by
        rintro rfl
        exact hne (hold rest hjoin)
      rw [hstop, Function.update_of_ne hother]
      exact hjoin

/-- The pool that a call finds at its swap: nothing, or all threads. -/
theorem Phase.swap (h : Phase cfg cb s) (hmutex : s.base.mMutex = none) (hpc : s.stop e = .swap) :
    Phase cfg cb (next cfg cb s (.stopSwap e)) := by
  have hempty : s.base.mPool = [] → Phase cfg cb (next cfg cb s (.stopSwap e)) := by
    intro hnil
    have hstop : (next cfg cb s (.stopSwap e)).stop = Function.update s.stop e (.join s.base.mPool) := rfl
    refine h.move (fun _ => rfl) hnil.symm rfl hstop ?_ ?_
    · intro vec hv
      rw [hpc] at hv
      cases hv
    · intro vec hv
      rw [hnil] at hv
      cases hv
      rfl
  cases h with
  | refused hr hs => exact hempty hr.pool
  | taken e₀ rest hinv hs => exact hempty hs.pool
  | untaken hinv hs =>
    by_cases hnil : s.base.mPool = []
    · exact hempty hnil
    · have hfull : s.base.mPool = if s.base.start.resized then
          Start.poolAt cfg.threadCnt (s.base.start.pushed cfg.threadCnt) else [] := hinv.pool
      have hunlocked : ¬ s.base.start.locked = true := by
        intro hl
        have hheld : s.base.mMutex = some .start := hinv.mutex.mpr hl
        rw [hmutex] at hheld
        cases hheld
      have hdone : s.base.start = .done := by
        cases hp : s.base.start with
        | done => rfl
        | out | lock =>
          rw [hp] at hfull
          exact absurd hfull hnil
        | check | create i | wait i | push i | unlock =>
          rw [hp] at hunlocked
          exact absurd rfl hunlocked
      rw [hdone] at hfull
      have hall : s.base.mPool = Start.poolAt cfg.threadCnt cfg.threadCnt := hfull
      refine .taken e s.base.mPool ?_ ⟨hdone, rfl, ?_, fun e' vec hv => ?_, fun _ => ?_⟩
      · rw [← hall]
        exact hinv
      · have hjoins : (next cfg cb s (.stopSwap e)).joins = [] := hs.joins
        rw [hjoins]
        exact hall
      · rcases eq_or_ne e' e with rfl | hne
        · refine Or.inr ⟨rfl, ?_⟩
          simpa [next, State.stopTo] using hv.symm
        · refine Or.inl (hs.vecs e' vec ?_)
          simpa [next, State.stopTo, hne] using hv
      · simp [next, State.stopTo]

/-- A thread is joined. -/
theorem Phase.join (h : Phase cfg cb s) {i : Nat} {vec : List (Option Nat)} (hpc : s.stop e = .join (some i :: vec)) :
    Phase cfg cb (next cfg cb s (.stopJoin e)) := by
  have hnext : next cfg cb s (.stopJoin e) = { s.stopTo e (.join vec) with joins := s.joins ++ [(e, i)] } := by
    simp only [next, hpc]
  rw [hnext]
  cases h with
  | refused hr hs => cases hs.vecs e _ hpc
  | untaken hinv hs => cases hs.vecs e _ hpc
  | taken e₀ rest hinv hs =>
    obtain ⟨rfl, rfl⟩ : e = e₀ ∧ some i :: vec = rest := by
      rcases hs.vecs e _ hpc with hnil | hmine
      · cases hnil
      · exact hmine
    refine .taken e vec hinv ⟨hs.start, hs.pool, ?_, fun e' vec' hv => ?_, fun _ => ?_⟩
    · rw [← hs.all]
      simp
    · rcases eq_or_ne e' e with rfl | hne
      · refine Or.inr ⟨rfl, ?_⟩
        simpa [State.stopTo] using hv.symm
      · refine (hs.vecs e' vec' (by simpa [State.stopTo, hne] using hv)).imp id fun hmine => ?_
        exact absurd hmine.1 hne
    · simp [State.stopTo]

/-- Every thread is there. -/
theorem none_not_mem (n : Nat) : none ∉ Start.poolAt n n := by
  intro h
  obtain ⟨j, hj, hnone⟩ := List.mem_map.mp h
  rw [if_pos (List.mem_range.mp hj)] at hnone
  cases hnone

omit [DecidableEq E] in
/-- No call comes to a null entry. -/
theorem Phase.not_null (h : Phase cfg cb s) {vec : List (Option Nat)} : s.stop e ≠ .join (none :: vec) := by
  intro hpc
  cases h with
  | refused hr hs => cases hs.vecs e _ hpc
  | untaken hinv hs => cases hs.vecs e _ hpc
  | taken e₀ rest hinv hs =>
    rcases hs.vecs e _ hpc with hnil | ⟨-, rfl⟩
    · cases hnil
    · refine none_not_mem cfg.threadCnt ?_
      rw [← hs.all]
      simp

/-- A call moves on, and keeps `m_pool`. -/
theorem Inv.step (h : Inv cfg cb s) {t : State C E} {pc : StopPc} (hphase : Phase cfg cb t)
    (hpool : t.base.mPool = s.base.mPool) (hstop : t.stop = Function.update s.stop e pc)
    (hset : s.base.mStopping = true → t.base.mStopping = true)
    (hpending : t.base.mStopping = true → pc.pending = true ∨ (s.stop e).pending = false ∧ s.base.mStopping = true)
    (hlate : pc.late = true → t.base.mStopping = true) (hreturned : 0 < t.returned → t.base.mStopping = true) :
    Inv cfg cb t := by
  refine ⟨hphase, fun hs hne => ?_, fun e' hl => ?_, hreturned⟩
  · rw [hstop]
    rcases hpending hs with hp | ⟨hold, hs⟩
    · exact ⟨e, by rwa [Function.update_self]⟩
    · obtain ⟨e', he⟩ := h.pending hs (by rwa [← hpool])
      have hother : e' ≠ e := by
        rintro rfl
        rw [hold] at he
        cases he
      exact ⟨e', by rwa [Function.update_of_ne hother]⟩
  · rw [hstop] at hl
    rcases eq_or_ne e' e with rfl | hne
    · rw [Function.update_self] at hl
      exact hlate hl
    · rw [Function.update_of_ne hne] at hl
      exact hset (h.late e' hl)

/-- A call that has nothing to join does. -/
theorem Inv.move (h : Inv cfg cb s) {t : State C E} {pc : StopPc} (hwhole : ∀ pool, t.whole pool = s.whole pool)
    (hpool : t.base.mPool = s.base.mPool) (hjoins : t.joins = s.joins) (hstop : t.stop = Function.update s.stop e pc)
    (hvec : ∀ vec, s.stop e ≠ .join vec) (hnew : ∀ vec, pc ≠ .join vec)
    (hset : s.base.mStopping = true → t.base.mStopping = true)
    (hpending : t.base.mStopping = true → pc.pending = true ∨ (s.stop e).pending = false ∧ s.base.mStopping = true)
    (hlate : pc.late = true → t.base.mStopping = true) (hreturned : 0 < t.returned → t.base.mStopping = true) :
    Inv cfg cb t :=
  h.step (h.phase.move hwhole hpool hjoins hstop (fun vec hv => absurd hv (hvec vec))
    (fun vec hv => absurd hv (hnew vec))) hpool hstop hset hpending hlate hreturned

/-- **Every step**, of creations that succeed, keeps the invariant. -/
theorem inv_next (h : Inv cfg cb s) {a : Act E} (hg : guard s a) (hc : Creates s a) : Inv cfg cb (next cfg cb s a) := by
  have hat : ∀ {e pc}, s.stop e = pc → (∀ vec, pc ≠ .join vec) → ∀ vec, s.stop e ≠ .join vec := by
    rintro e pc rfl hpc vec
    exact hpc vec
  cases a with
  | base a =>
    have hstop : (next cfg cb s (.base a)).base.mStopping = s.base.mStopping := mStopping_base a
    refine ⟨h.phase.base hg, fun hs hne => ?_, fun e hl => hstop.trans (h.late e hl),
      fun hr => hstop.trans (h.returned hr)⟩
    have hs' := hstop.symm.trans hs
    exact h.pending hs' (mPool_base hs' hne)
  | throws i => exact hc.elim
  | stopCall e =>
    exact h.move (fun _ => rfl) rfl rfl rfl (hat hg (by simp)) (by simp) id
      (fun hs => Or.inr ⟨by rw [show s.stop e = .out from hg]; rfl, hs⟩) (fun hl => by cases hl) h.returned
  | stopCheck e quiet =>
    obtain ⟨hpc, -⟩ := hg
    have hcheck := hat hpc (by simp)
    have hold : (s.stop e).pending = false := by rw [hpc]; rfl
    simp only [next]
    split_ifs with hs
    · rw [Bool.and_eq_true] at hs
      exact h.move (fun _ => rfl) rfl rfl rfl hcheck (by simp) id (fun hs => Or.inr ⟨hold, hs⟩)
        (fun hl => by cases hl) fun _ => hs.1
    · exact h.move (fun _ => rfl) rfl rfl rfl hcheck (by simp) id (fun hs => Or.inr ⟨hold, hs⟩)
        (fun hl => by cases hl) h.returned
  | stopSet e =>
    exact h.move (fun _ => rfl) rfl rfl rfl (hat hg (by simp)) (by simp) (fun _ => rfl) (fun _ => Or.inl rfl)
      (fun _ => rfl) fun _ => rfl
  | stopAssert e =>
    have hs : s.base.mStopping = true := h.late e (by rw [show s.stop e = .assertion from hg]; rfl)
    simp only [next]
    split_ifs with howner
    · exact h.move (fun _ => rfl) rfl rfl rfl (hat hg (by simp)) (by simp) id (fun _ => Or.inl rfl) (fun _ => hs)
        fun _ => hs
    · have hself : s.stop = Function.update s.stop e .assertion := by
        rw [← show s.stop e = .assertion from hg, Function.update_eq_self]
      exact h.move (fun _ => rfl) rfl rfl hself (hat hg (by simp)) (by simp) id (fun _ => Or.inl rfl) (fun _ => hs)
        fun _ => hs
  | stopTickle e =>
    have hs : s.base.mStopping = true := h.late e (by rw [show s.stop e = .tickle from hg]; rfl)
    exact h.move (fun _ => rfl) rfl rfl rfl (hat hg (by simp)) (by simp) id (fun _ => Or.inl rfl) (fun _ => hs)
      fun _ => hs
  | stopResume e =>
    have hs : s.base.mStopping = true := h.late e (by rw [show s.stop e = .resume from hg]; rfl)
    exact h.move (fun _ => rfl) rfl rfl rfl (hat hg (by simp)) (by simp) id (fun _ => Or.inl rfl) (fun _ => hs)
      fun _ => hs
  | stopSwap e =>
    obtain ⟨hpc, hmutex⟩ := hg
    have hs : s.base.mStopping = true := h.late e (by rw [hpc]; rfl)
    exact ⟨h.phase.swap hmutex hpc, fun _ hne => absurd rfl hne, fun _ _ => hs, fun _ => hs⟩
  | stopJoin e =>
    simp only [guard] at hg
    split at hg
    · exact absurd ‹_› h.phase.not_null
    · rename_i i vec hpc
      have hs : s.base.mStopping = true := h.late e (by rw [hpc]; rfl)
      have hphase := h.phase.join hpc
      have hnext : next cfg cb s (.stopJoin e) = { s.stopTo e (.join vec) with joins := s.joins ++ [(e, i)] } := by
        simp only [next, hpc]
      rw [hnext] at hphase ⊢
      exact h.step hphase rfl rfl id (fun hs => Or.inr ⟨by rw [hpc]; rfl, hs⟩) (fun _ => hs) fun _ => hs
    · exact hg.elim
  | stopEnd e =>
    have hpc : s.stop e = .join [] := hg
    have hs : s.base.mStopping = true := h.late e (by rw [hpc]; rfl)
    have hphase : Phase cfg cb (next cfg cb s (.stopEnd e)) := by
      refine h.phase.move (fun _ => rfl) rfl rfl rfl (fun vec hv => ?_) (fun vec hv => by cases hv)
      rw [hpc] at hv
      cases hv
      rfl
    exact h.step hphase rfl rfl id (fun hs => Or.inr ⟨by rw [hpc]; rfl, hs⟩) (fun hl => by cases hl) fun _ => hs

theorem inv_reach (h : (system cfg cb).Reach Creates s) : Inv cfg cb s := by
  refine h.inv ?_ ?_
  · rintro s rfl
    exact inv_initial cfg cb
  · intro s a hs he hc
    exact inv_next hs he.2.2.2 hc

/-! ## Every thread is joined once -/

/-- **Every thread is joined once.** Behind `start()` and the `stop()` calls, of which there has been one at least,
`m_pool` is empty, and each thread that `start()` has created has been joined once, by one of them. -/
theorem joined_once (cfg : Config E) (cb : C) {s : State C E} (h : (system cfg cb).Reach Creates s)
    (hstart : s.base.start = .done) (hstop : ∀ e, s.stop e = .out) (hreturned : 0 < s.returned) :
    s.base.mPool = [] ∧ (s.joins.map Prod.snd).Nodup ∧
      ∀ i, i ∈ s.joins.map Prod.snd ↔ (s.base.thread i).pc ≠ .unborn := by
  have hinv := inv_reach h
  have hempty : s.base.mPool = [] := by
    by_contra hne
    obtain ⟨e, he⟩ := hinv.pending (hinv.returned hreturned) hne
    rw [hstop e] at he
    cases he
  refine ⟨hempty, ?_⟩
  cases hinv.phase with
  | refused hr hs =>
    rw [hs.joins]
    exact ⟨List.nodup_nil, fun i => ⟨fun hi => by simp at hi, fun hi => absurd (hr.unborn i) hi⟩⟩
  | untaken hwhole hs =>
    -- `start()` has created no thread, since there is none to create
    have hpool := hwhole.pool
    have hborn := fun i => (hwhole.threads i).born
    simp only [State.whole, hstart] at hpool hborn
    have hnone : cfg.threadCnt = 0 := by
      have hlen := congrArg List.length hpool
      rw [hempty] at hlen
      simpa [Start.poolAt, Start.StartPc.resized] using hlen.symm
    rw [hs.joins]
    refine ⟨List.nodup_nil, fun i => ⟨fun hi => by simp at hi, fun hi => absurd ((hborn i).mpr ?_) hi⟩⟩
    simp only [Start.StartPc.created]
    omega
  | taken e rest hwhole hs =>
    have hborn := fun i => (hwhole.threads i).born
    simp only [State.whole, hstart] at hborn
    have hrest : rest = [] := by
      by_contra hne
      have hjoin := hs.joining hne
      rw [hstop e] at hjoin
      cases hjoin
    have hall : (s.joins.map Prod.snd).map some = (List.range cfg.threadCnt).map some := by
      have hall := hs.all
      rw [hrest, List.append_nil] at hall
      rw [List.map_map]
      refine hall.trans ?_
      unfold Start.poolAt
      refine List.map_congr_left fun j hj => ?_
      rw [if_pos (List.mem_range.mp hj)]
    have hjoins : s.joins.map Prod.snd = List.range cfg.threadCnt :=
      List.map_injective_iff.mpr (Option.some_injective _) hall
    rw [hjoins]
    refine ⟨List.nodup_range, fun i => ?_⟩
    rw [List.mem_range, ne_eq, hborn i]
    simp only [Start.StartPc.created]
    omega

instance (s : State C E) (a : Act E) : Decidable (guard s a) := by
  cases a <;> dsimp only [guard] <;> (try split) <;> infer_instance

instance (cfg : Config E) (cb : C) (s : State C E) (a : Act E) : Decidable ((system cfg cb).enabled s a) :=
  inferInstanceAs (Decidable (_ ∧ _ ∧ _ ∧ guard s a))

instance (s : State C E) (a : Act E) : Decidable (Creates s a) := by
  cases a <;> dsimp only [Creates] <;> infer_instance

/-- Two threads, none of them the caller's. -/
def duo (owner : Fin 3) : Config (Fin 3) where
  __ := Start.pool 2
  root := none
  root_ne := by simp
  owner := owner

/-- Two `stop()` calls find `m_stopping` unset. One sets it while `start()` creates the threads, and gets them; the
other one comes behind it. -/
def duoRun (e f : Fin 3) : List (Act (Fin 3)) :=
  [.base .call, .stopCall e, .stopCheck e true, .stopCall f, .stopCheck f true, .base .acquire, .base .check,
    .stopSet e] ++ (Start.quickRun 0 ++ Start.quickRun 1).map .base ++
  [.base .unlock, .stopAssert e, .stopTickle e, .stopResume e, .stopSwap e, .stopSet f, .stopAssert f, .stopTickle f,
    .stopResume f, .stopSwap f, .stopEnd f, .base (.invoke 0), .base (.invoke 1), .base (.finish 0), .base (.finish 1),
    .stopJoin e, .stopJoin e, .stopEnd e]

theorem joined_once_duo : ∃ s : State Unit (Fin 3), s.joins = [(1, 0), (1, 1)] ∧ s.base.mPool = [] ∧
    (s.joins.map Prod.snd).Nodup := by
  have h : (System.exec (system (duo 0) ()) Creates (initial Unit (duo 0)) (duoRun 1 2)).isSome = true := by decide
  have hout : ∀ e, ((System.exec (system (duo 0) ()) Creates (initial Unit (duo 0)) (duoRun 1 2)).get h).stop e = .out
    | 0 => rfl
    | 1 => rfl
    | 2 => rfl
  have hjoined := joined_once (duo 0) () (System.reach_exec rfl h) rfl hout Nat.two_pos
  exact ⟨_, rfl, hjoined.1, hjoined.2.1⟩

/-! ## A `start()` that has thrown -/

/-- The null entries of the pool are still there, in `m_pool` or in the `vec` of a call. -/
structure Lost (s : State C E) : Prop where
  start : s.base.start = .done
  null : none ∈ s.base.mPool ∨ ∃ e vec, s.stop e = .join vec ∧ none ∈ vec

/-- The exception leaves an entry that is null. -/
theorem lost_throws (h : Inv cfg cb s) {i : Nat} (hg : s.base.start = .create i) :
    i < cfg.threadCnt ∧ Lost (next cfg cb s (.throws i)) := by
  cases h.phase with
  | refused hr hs =>
    have hstart := hr.start
    rw [hg] at hstart
    rcases hstart with hstart | hstart <;> cases hstart
  | taken e rest hinv hs =>
    have hstart := hs.start
    rw [hg] at hstart
    cases hstart
  | untaken hinv hs =>
    have hpool := hinv.pool
    have hi := hinv.current i (Or.inl hg)
    simp only [State.whole, hg] at hpool
    refine ⟨hi, rfl, Or.inl ?_⟩
    rw [show (next cfg cb s (.throws i)).base.mPool = s.base.mPool from rfl, hpool]
    exact List.mem_map.mpr ⟨i, List.mem_range.mpr hi, if_neg (Nat.lt_irrefl i)⟩

/-- And it stays. -/
theorem lost_next (h : Lost s) {a : Act E} (hg : guard s a) : Lost (next cfg cb s a) := by
  have hmove : ∀ {t : State C E} {e : E} {pc : StopPc}, t.base.start = s.base.start → t.base.mPool = s.base.mPool →
      t.stop = Function.update s.stop e pc → (∀ vec, s.stop e = .join vec → none ∈ vec → ∃ vec', pc = .join vec' ∧
        none ∈ vec') → Lost t := by
    intro t e pc hstart hpool hstop hpc
    refine ⟨hstart.trans h.start, ?_⟩
    rw [hpool]
    refine h.null.imp_right ?_
    rintro ⟨e', vec, hv, hmem⟩
    rcases eq_or_ne e' e with rfl | hne
    · obtain ⟨vec', hvec', hmem'⟩ := hpc vec hv hmem
      exact ⟨e', vec', by rw [hstop, Function.update_self, hvec'], hmem'⟩
    · exact ⟨e', vec, by rw [hstop, Function.update_of_ne hne, hv], hmem⟩
  have hplain : ∀ {t : State C E} {e : E} {pc : StopPc}, t.base.start = s.base.start → t.base.mPool = s.base.mPool →
      t.stop = Function.update s.stop e pc → (∀ vec, s.stop e ≠ .join vec) → Lost t :=
    fun hstart hpool hstop hpc => hmove hstart hpool hstop fun vec hv => absurd hv (hpc vec)
  have hat : ∀ {e pc}, s.stop e = pc → (∀ vec, pc ≠ .join vec) → ∀ vec, s.stop e ≠ .join vec := by
    rintro e pc rfl hpc vec
    exact hpc vec
  cases a with
  | base a =>
    obtain ⟨-, hpool, hdone⟩ := next_done [] hg h.start
    exact ⟨hdone, by simpa only [next, hpool] using h.null⟩
  | throws i =>
    have hstart : s.base.start = .create i := hg
    rw [h.start] at hstart
    cases hstart
  | stopCall e => exact hplain rfl rfl rfl (hat hg (by simp))
  | stopSet e => exact hplain rfl rfl rfl (hat hg (by simp))
  | stopTickle e => exact hplain rfl rfl rfl (hat hg (by simp))
  | stopResume e => exact hplain rfl rfl rfl (hat hg (by simp))
  | stopCheck e quiet =>
    simp only [next]
    split_ifs
    · exact hplain rfl rfl rfl (hat hg.1 (by simp))
    · exact hplain rfl rfl rfl (hat hg.1 (by simp))
  | stopAssert e =>
    simp only [next]
    split_ifs
    · exact hplain rfl rfl rfl (hat hg (by simp))
    · exact ⟨h.start, h.null⟩
  | stopSwap e =>
    refine ⟨h.start, Or.inr ?_⟩
    rcases h.null with hmem | ⟨e', vec, hv, hmem⟩
    · exact ⟨e, s.base.mPool, by simp [next, State.stopTo], hmem⟩
    · have hne : e' ≠ e := by
        rintro rfl
        rw [hg.1] at hv
        cases hv
      exact ⟨e', vec, by simpa [next, State.stopTo, hne] using hv, hmem⟩
  | stopJoin e =>
    simp only [guard] at hg
    split at hg
    · rename_i vec hpc
      simp only [next, hpc]
      exact ⟨h.start, h.null⟩
    · rename_i i vec hpc
      simp only [next, hpc]
      refine hmove rfl rfl rfl fun vec' hv hmem => ⟨vec, rfl, ?_⟩
      rw [hpc] at hv
      cases hv
      simpa using hmem
    · exact hg.elim
  | stopEnd e =>
    refine hmove rfl rfl rfl fun vec hv hmem => ?_
    rw [show s.stop e = .join [] from hg] at hv
    cases hv
    cases hmem

theorem failed_next {a : Act E} (ha : ∀ i, a ≠ .throws i) : (next cfg cb s a).failed = s.failed := by
  cases a with
  | throws i => exact absurd rfl (ha i)
  | stopCheck e quiet | stopAssert e =>
    simp only [next]
    split_ifs <;> rfl
  | stopJoin e =>
    simp only [next]
    split <;> rfl
  | _ => rfl

/-- **Every run**: `start()` has not thrown, or it has left a null entry. -/
theorem lost_reach (h : (system cfg cb).Reach Always s) :
    (s.failed = none → Inv cfg cb s) ∧ ∀ i, s.failed = some i → i < cfg.threadCnt ∧ Lost s := by
  refine h.inv (I := fun s => (s.failed = none → Inv cfg cb s) ∧ ∀ i, s.failed = some i → i < cfg.threadCnt ∧ Lost s)
    ?_ ?_
  · rintro s rfl
    exact ⟨fun _ => inv_initial cfg cb, fun i hi => by cases hi⟩
  · rintro s a ⟨hgood, hlost⟩ ⟨-, -, -, hg⟩ -
    by_cases hthrows : ∃ i, a = .throws i
    · obtain ⟨i, rfl⟩ := hthrows
      have hfailed : ((system cfg cb).next s (.throws i)).failed = some i := rfl
      refine ⟨fun hn => ?_, fun j hj => ?_⟩
      · rw [hfailed] at hn
        cases hn
      obtain rfl : i = j := Option.some.inj (hfailed.symm.trans hj)
      cases hf : s.failed with
      | none => exact lost_throws (hgood hf) hg
      | some j =>
        have hstart : s.base.start = .create i := hg
        rw [(hlost j hf).2.start] at hstart
        cases hstart
    · have hne : ∀ i, a ≠ .throws i := fun i hi => hthrows ⟨i, hi⟩
      have hc : Creates s a := by
        cases a with
        | throws i => exact absurd rfl (hne i)
        | _ => trivial
      have hfailed : ((system cfg cb).next s a).failed = s.failed := failed_next hne
      rw [hfailed]
      exact ⟨fun hn => inv_next (hgood hn) hg hc, fun i hi => ⟨(hlost i hi).1, lost_next (hlost i hi).2 hg⟩⟩

/-! ## A run to a null entry -/

/-- One pass of the loop of `start()`, with the child up to the end of its handshake. -/
def passRun (i : Nat) : List Start.Act :=
  [.create i, .setId i, .swap i, .signal i none, .invoke i, .wait i (.wait .parent), .push i]

/-- A state with another thread and another position. -/
def put (b : Start.State C) (i : Nat) (t : Start.Thread C) (p : Start.StartPc) : Start.State C :=
  { b with thread := Function.update b.thread i t, start := p }

omit [DecidableEq E] in
theorem pass (cfg : Config E) (cb : C) {b : Start.State C} {i : Nat} (hstart : b.start = .create i)
    (halive : b.aborted = false) : ∃ t : Start.Thread C, t.pc = .loop ∧
      (Start.system cfg.toConfig cb).Steps Always b (passRun i)
        { put b i t (Start.loop cfg.toConfig (i + 1)) with
          mPool := b.mPool.set i (some i), mThreadIds := b.mThreadIds ++ [cfg.tid i] } := by
  obtain ⟨sem, hsem⟩ : ∃ sem, sem = Semaphore.initial Start.Side 0 := ⟨_, rfl⟩
  obtain ⟨sem', hsem'⟩ : ∃ sem', sem' = Semaphore.next sem (.signal .child none) := ⟨_, rfl⟩
  have hin : Semaphore.guard sem (.signal .child none) := by
    rw [hsem]
    exact ⟨rfl, fun _ h => by cases h⟩
  have hwait : Semaphore.guard sem' (.wait .parent) := by
    rw [hsem', hsem]
    rfl
  have hout : (Semaphore.next sem' (.wait .parent)).pc .parent = .out := by
    rw [hsem', hsem]
    rfl
  let t₁ : Start.Thread C := ⟨-1, some cb, sem, .setId, none, []⟩
  let t₂ : Start.Thread C := ⟨cfg.tid i, some cb, sem, .swap, none, []⟩
  let t₃ : Start.Thread C := ⟨cfg.tid i, none, sem, .signal, some cb, []⟩
  let t₄ : Start.Thread C := ⟨cfg.tid i, none, sem', .call, some cb, []⟩
  let t₅ : Start.Thread C := ⟨cfg.tid i, none, sem', .loop, some cb, [cb]⟩
  let t₆ : Start.Thread C := ⟨cfg.tid i, none, Semaphore.next sem' (.wait .parent), .loop, some cb, [cb]⟩
  have h₁ : Start.next cfg.toConfig cb b (.create i) = put b i t₁ (.wait i) := by
    simp [Start.next, put, Start.Thread.fresh, t₁, hsem]
  have h₂ : Start.next cfg.toConfig cb (put b i t₁ (.wait i)) (.setId i) = put b i t₂ (.wait i) := by
    simp [Start.next, put, t₁, t₂]
  have h₃ : Start.next cfg.toConfig cb (put b i t₂ (.wait i)) (.swap i) = put b i t₃ (.wait i) := by
    simp [Start.next, put, t₂, t₃]
  have h₄ : Start.next cfg.toConfig cb (put b i t₃ (.wait i)) (.signal i none) = put b i t₄ (.wait i) := by
    simp [Start.next, put, t₃, t₄, hsem']
  have h₅ : Start.next cfg.toConfig cb (put b i t₄ (.wait i)) (.invoke i) = put b i t₅ (.wait i) := by
    simp [Start.next, put, t₄, t₅]
  have h₆ : Start.next cfg.toConfig cb (put b i t₅ (.wait i)) (.wait i (.wait .parent)) = put b i t₆ (.push i) := by
    simp [Start.next, put, t₅, t₆, hout]
  have h₇ : Start.next cfg.toConfig cb (put b i t₆ (.push i)) (.push i) =
      { put b i t₆ (Start.loop cfg.toConfig (i + 1)) with
        mPool := b.mPool.set i (some i), mThreadIds := b.mThreadIds ++ [cfg.tid i] } := by
    simp [Start.next, put, t₆]
  refine ⟨t₆, rfl, .cons ⟨halive, hstart⟩ trivial ?_⟩
  rw [show (Start.system cfg.toConfig cb).next b (.create i) = _ from h₁]
  refine .cons ⟨halive, by simp [Start.guard, put, t₁]⟩ trivial ?_
  rw [show (Start.system cfg.toConfig cb).next _ (.setId i) = _ from h₂]
  refine .cons ⟨halive, by simp [Start.guard, put, t₂]⟩ trivial ?_
  rw [show (Start.system cfg.toConfig cb).next _ (.swap i) = _ from h₃]
  refine .cons ⟨halive, by simpa [Start.guard, put, t₃] using hin⟩ trivial ?_
  rw [show (Start.system cfg.toConfig cb).next _ (.signal i none) = _ from h₄]
  refine .cons ⟨halive, by simp [Start.guard, put, t₄]⟩ trivial ?_
  rw [show (Start.system cfg.toConfig cb).next _ (.invoke i) = _ from h₅]
  refine .cons ⟨halive, by simpa [Start.guard, Start.isWait, put, t₅] using hwait⟩ trivial ?_
  rw [show (Start.system cfg.toConfig cb).next _ (.wait i (.wait .parent)) = _ from h₆]
  refine .cons ⟨halive, rfl⟩ trivial ?_
  rw [show (Start.system cfg.toConfig cb).next _ (.push i) = _ from h₇]
  exact .nil _

omit [DecidableEq E] in
/-- The first `i` passes, and the head of the loop behind them. -/
theorem passes (cfg : Config E) (cb : C) : ∀ i < cfg.threadCnt, ∃ as t,
    (Start.system cfg.toConfig cb).Steps Always (Start.initial C cfg.toConfig) as t ∧ t.start = .create i ∧
      t.aborted = false ∧ t.mStopping = false ∧ (∀ j < i, (t.thread j).pc = .loop) ∧
      t.mPool = Start.poolAt cfg.threadCnt i
  | 0, hi => by
    have hnext : (Start.system cfg.toConfig cb).next ((Start.system cfg.toConfig cb).next
        ((Start.system cfg.toConfig cb).next (Start.initial C cfg.toConfig) .call) .acquire) .check =
        { Start.initial C cfg.toConfig with
          mMutex := some .start, mPool := List.replicate cfg.threadCnt none, start := Start.loop cfg.toConfig 0 } := by
      simp [Start.system, Start.next, Start.initial]
    have hrun : (Start.system cfg.toConfig cb).Steps Always (Start.initial C cfg.toConfig)
        [.call, .acquire, .check] _ :=
      .cons ⟨rfl, rfl⟩ trivial (.cons ⟨rfl, rfl, rfl⟩ trivial (.cons ⟨rfl, rfl⟩ trivial (.nil _)))
    rw [hnext] at hrun
    refine ⟨_, _, hrun, ?_, rfl, rfl, fun j hj => absurd hj (Nat.not_lt_zero j), Start.poolAt_zero _⟩
    simp [Start.loop, hi]
  | i + 1, hi => by
    obtain ⟨as, b, hrun, hstart, halive, hstop, hpc, hpool⟩ := passes cfg cb i (by omega)
    obtain ⟨t, ht, hpass⟩ := pass cfg cb hstart halive
    refine ⟨_, _, hrun.append hpass, ?_, halive, hstop, fun j hj => ?_, ?_⟩
    · simp [put, Start.loop, hi]
    · rcases eq_or_ne j i with rfl | hne
      · simpa [put] using ht
      · simpa [put, hne] using hpc j (by omega)
    · rw [hpool]
      exact Start.poolAt_succ (by omega)

/-- The same with the `stop()` calls at rest. -/
theorem steps_base {b b' : Start.State C} {as : List Start.Act}
    (h : (Start.system cfg.toConfig cb).Steps Always b as b') (hnull : s.nullJoin = false)
    (hassert : s.asserted = false) :
    (system cfg cb).Steps Always { s with base := b } (as.map .base) { s with base := b' } := by
  induction h with
  | nil b => exact .nil _
  | cons he _ _ ih => exact .cons ⟨he.1, hnull, hassert, he.2⟩ trivial ih

/-- The threads that are in the loop of `run()` leave it. -/
theorem finishes (cfg : Config E) (cb : C) (halive : s.base.aborted = false) (hnull : s.nullJoin = false)
    (hassert : s.asserted = false) : ∀ i, (∀ j < i, (s.base.thread j).pc = .loop) → ∃ as f,
      (system cfg cb).Steps Always s as { s with base := { s.base with thread := f } } ∧
        (∀ j < i, (f j).pc = .done) ∧ ∀ j, i ≤ j → f j = s.base.thread j
  | 0, _ => ⟨[], s.base.thread, .nil _, fun j hj => absurd hj (Nat.not_lt_zero j), fun _ _ => rfl⟩
  | i + 1, hpc => by
    obtain ⟨as, f, hrun, hdone, hsame⟩ := finishes cfg cb halive hnull hassert i fun j hj => hpc j (by omega)
    have hfi : (f i).pc = .loop := by
      rw [hsame i (Nat.le_refl i)]
      exact hpc i (Nat.lt_succ_self i)
    refine ⟨as ++ [.base (.finish i)], Function.update f i { f i with pc := .done },
      hrun.snoc (a := Act.base (.finish i)) ⟨halive, hnull, hassert, hfi⟩ trivial, fun j hj => ?_, fun j hj => ?_⟩
    · rcases eq_or_ne j i with rfl | hne
      · rw [Function.update_self]
      · rw [Function.update_of_ne hne]
        exact hdone j (by omega)
    · rw [Function.update_of_ne (by omega)]
      exact hsame j (by omega)

/-- A call joins what comes before a null entry, and goes on to that. -/
theorem joins_null (cfg : Config E) (cb : C) (rest : List (Option Nat)) : ∀ (l : List Nat) {s : State C E},
    s.base.aborted = false → s.nullJoin = false → s.asserted = false →
    s.stop e = .join (l.map some ++ none :: rest) → (∀ j ∈ l, (s.base.thread j).pc = .done) →
    ∃ as t, (system cfg cb).Steps Always s as t ∧ t.nullJoin = true ∧ t.failed = s.failed ∧
      t.joins = s.joins ++ l.map fun i => (e, i)
  | [], s, halive, hnull, hassert, hpc, _ => by
    have hpc : s.stop e = .join (none :: rest) := hpc
    have hg : guard s (.stopJoin e) := by simp only [guard, hpc]
    refine ⟨[.stopJoin e], _, .cons ⟨halive, hnull, hassert, hg⟩ trivial (.nil _), ?_⟩
    simp [system, next, hpc]
  | i :: l, s, halive, hnull, hassert, hpc, hdone => by
    have hpc : s.stop e = .join (some i :: (l.map some ++ none :: rest)) := hpc
    have hg : guard s (.stopJoin e) := by
      simp only [guard, hpc]
      exact hdone i List.mem_cons_self
    have hnext : (system cfg cb).next s (.stopJoin e) =
        { s.stopTo e (.join (l.map some ++ none :: rest)) with joins := s.joins ++ [(e, i)] } := by
      simp only [system, next, hpc]
    obtain ⟨as, t, hrun, ht, hfailed, hjoins⟩ := joins_null cfg cb rest l
      (s := { s.stopTo e (.join (l.map some ++ none :: rest)) with joins := s.joins ++ [(e, i)] })
      halive hnull hassert (by simp [State.stopTo]) fun j hj => hdone j (List.mem_cons_of_mem i hj)
    rw [← hnext] at hrun
    refine ⟨_, t, .cons ⟨halive, hnull, hassert, hg⟩ trivial hrun, ht, hfailed, ?_⟩
    rw [hjoins]
    simp

/-- The pool behind a failed creation. -/
theorem poolAt_eq {n i : Nat} (hi : i < n) : ∃ rest, Start.poolAt n i = (List.range i).map some ++ none :: rest := by
  obtain ⟨m, rfl⟩ : ∃ m, n = i + (m + 1) := ⟨n - i - 1, by omega⟩
  refine ⟨(List.range m).map fun j => if i + (j + 1) < i then some (i + (j + 1)) else none, ?_⟩
  have hfirst : (List.range i).map (fun j => if j < i then some j else none) = (List.range i).map some :=
    List.map_congr_left fun j hj => if_pos (List.mem_range.mp hj)
  unfold Start.poolAt
  rw [List.range_add, List.map_append, hfirst, List.range_succ_eq_map]
  simp [Function.comp_def]

/-- A call of a thread that may stop the scheduler comes to its swap. -/
theorem comes_to_swap (cfg : Config E) (cb : C) (he : cfg.root.isSome = true ↔ e = cfg.owner)
    (halive : s.base.aborted = false) (hnull : s.nullJoin = false) (hassert : s.asserted = false)
    (hmutex : s.base.mMutex = none) (hrun : s.base.mStopping = false) (hout : s.stop e = .out) :
    ∃ as, (system cfg cb).Steps Always s as { s.stopTo e .swap with base := { s.base with mStopping := true } } := by
  let t (pc : StopPc) : State C E := s.stopTo e pc
  let u (pc : StopPc) : State C E := { s.stopTo e pc with base := { s.base with mStopping := true } }
  have ht : ∀ pc, (t pc).stop e = pc := fun pc => by simp [t, State.stopTo]
  have hu : ∀ pc, (u pc).stop e = pc := fun pc => by simp [u, State.stopTo]
  have h₁ : next cfg cb s (.stopCall e) = t .check := rfl
  have h₂ : next cfg cb (t .check) (.stopCheck e true) = t .set := by
    simp [next, t, State.stopTo, hrun]
  have h₃ : next cfg cb (t .set) (.stopSet e) = u .assertion := by
    simp [next, t, u, State.stopTo]
  have h₄ : next cfg cb (u .assertion) (.stopAssert e) = u .tickle := by
    simp [next, u, State.stopTo, he]
  have h₅ : next cfg cb (u .tickle) (.stopTickle e) = u .resume := by
    simp [next, u, State.stopTo]
  have h₆ : next cfg cb (u .resume) (.stopResume e) = u .swap := by
    simp [next, u, State.stopTo]
  refine ⟨[.stopCall e, .stopCheck e true, .stopSet e, .stopAssert e, .stopTickle e, .stopResume e], ?_⟩
  refine .cons ⟨halive, hnull, hassert, hout⟩ trivial ?_
  rw [show (system cfg cb).next s (.stopCall e) = _ from h₁]
  refine .cons ⟨halive, hnull, hassert, ht .check, hmutex⟩ trivial ?_
  rw [show (system cfg cb).next _ (.stopCheck e true) = _ from h₂]
  refine .cons ⟨halive, hnull, hassert, ht .set⟩ trivial ?_
  rw [show (system cfg cb).next _ (.stopSet e) = _ from h₃]
  refine .cons ⟨halive, hnull, hassert, hu .assertion⟩ trivial ?_
  rw [show (system cfg cb).next _ (.stopAssert e) = _ from h₄]
  refine .cons ⟨halive, hnull, hassert, hu .tickle⟩ trivial ?_
  rw [show (system cfg cb).next _ (.stopTickle e) = _ from h₅]
  refine .cons ⟨halive, hnull, hassert, hu .resume⟩ trivial ?_
  rw [show (system cfg cb).next _ (.stopResume e) = _ from h₆]
  exact .nil _

/-- **A later `stop()` can do its work**: behind the failed creation of the `i`-th thread no `stop()` call comes to a
null entry. -/
def Stoppable (cfg : Config E) (cb : C) (i : Nat) : Prop :=
  ∀ s, (system cfg cb).Reach Always s → s.failed = some i → s.nullJoin = false

/-- **Behind a failed `start()` the scheduler cannot be stopped.** Whichever creation has thrown, there is a run in
which the later `stop()` call of a thread that may stop the scheduler joins the threads before it and then calls
`join()` through a null entry. And in no run does a `stop()` call that has the threads return: the null entries of the
pool are there to the end, in `m_pool` or in what a call has still to join. -/
theorem failed_start (cfg : Config E) (cb : C) {i : Nat} (hi : i < cfg.threadCnt) {e : E}
    (he : cfg.root.isSome = true ↔ e = cfg.owner) :
    ¬ Stoppable cfg cb i ∧
      (∃ s, (system cfg cb).Reach Always s ∧ s.failed = some i ∧ s.nullJoin = true ∧
        s.joins = (List.range i).map fun j => (e, j)) ∧
      ∀ s, (system cfg cb).Reach Always s → s.failed = some i →
        none ∈ s.base.mPool ∨ ∃ e vec, s.stop e = .join vec ∧ none ∈ vec := by
  have hnull : ∃ s, (system cfg cb).Reach Always s ∧ s.failed = some i ∧ s.nullJoin = true ∧
      s.joins = (List.range i).map fun j => (e, j) := by
    obtain ⟨as, b, hrun, hstart, halive, hstop, hpc, hpool⟩ := passes (C := C) cfg cb i hi
    let s₁ : State C E := { initial C cfg with base := { b with mMutex := none, start := .done }, failed := some i }
    have h₁ : (system cfg cb).Steps Always (initial C cfg) _ s₁ :=
      (steps_base (s := initial C cfg) hrun rfl rfl).snoc (a := Act.throws i) ⟨halive, rfl, rfl, hstart⟩ trivial
    let s₂ : State C E := { s₁.stopTo e .swap with base := { s₁.base with mStopping := true } }
    obtain ⟨as₂, h₂⟩ := comes_to_swap (s := s₁) cfg cb he halive rfl rfl rfl hstop rfl
    obtain ⟨as₃, f, h₃, hdone, -⟩ := finishes (s := s₂) cfg cb halive rfl rfl i hpc
    let s₃ : State C E := { s₂ with base := { s₂.base with thread := f } }
    have hswap : s₃.stop e = .swap := by simp [s₃, s₂, State.stopTo]
    have h₄ : (system cfg cb).Steps Always s₃ [.stopSwap e] _ :=
      .cons ⟨halive, rfl, rfl, hswap, rfl⟩ trivial (.nil _)
    obtain ⟨rest, hrest⟩ := poolAt_eq hi
    have hjoin : ((system cfg cb).next s₃ (.stopSwap e)).stop e = .join ((List.range i).map some ++ none :: rest) := by
      rw [← hrest, ← hpool]
      simp [system, next, State.stopTo, s₃, s₂, s₁]
    obtain ⟨as₅, t, h₅, hnull, hfailed, hjoins⟩ := joins_null cfg cb rest (List.range i)
      (s := (system cfg cb).next s₃ (.stopSwap e)) halive rfl rfl hjoin fun j hj => hdone j (List.mem_range.mp hj)
    exact ⟨t, ⟨_, _, rfl, (((h₁.append h₂).append h₃).append h₄).append h₅⟩, hfailed, hnull, hjoins⟩
  refine ⟨fun hstoppable => ?_, hnull, fun s h hf => ((lost_reach h).2 i hf).2.null⟩
  obtain ⟨s, h, hf, hjoin, -⟩ := hnull
  rw [hstoppable s h hf] at hjoin
  cases hjoin

theorem failed_start_duo : ¬ Stoppable (duo 0) () 0 :=
  (failed_start (duo 0) () (i := 0) (by decide) (e := 1) (by decide)).1

/-- The second of two threads cannot be created. `stop()` joins the first one, and then nothing. -/
def nullRun (e : Fin 3) : List (Act (Fin 3)) :=
  [.base .call, .base .acquire, .base .check] ++ (Start.quickRun 0).map .base ++
  [.throws 1, .stopCall e, .stopCheck e true, .stopSet e, .stopAssert e, .stopTickle e, .stopResume e, .stopSwap e,
    .base (.invoke 0), .base (.finish 0), .stopJoin e, .stopJoin e]

theorem null_join : ¬ Stoppable (duo 0) () 1 := by
  intro hstoppable
  have h : (System.exec (system (duo 0) ()) Always (initial Unit (duo 0)) (nullRun 1)).isSome = true := by decide
  have hnull := hstoppable _ (System.reach_exec rfl h) rfl
  cases hnull

end Sylar.Join
