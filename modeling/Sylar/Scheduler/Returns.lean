import Sylar.Scheduler.Progress
import Sylar.Scheduler.Stop

/-!
# `stop()` returns

A call of `stop()` waits for the caller thread's `run()` and for the threads of the pool, and a worker leaves `run()`
only after `stopping()` has been true. So the call returns if the queue is ever drained, and whether it is depends on
the tasks: one that is pinned to a thread without a worker stays in `m_tasks` for ever.

- `Worker.toDone`, `toDone_next`: how far a worker is from the end of `run()` once `stopping()` is true; `done_soon`;
- `StopPc.left`, `left_next`: how far a call is from its end; `awaited_born`: what it waits for has been created;
- `call_leads`: a call with nothing to wait for gets to its end;
- `drained_soon`: where no more tasks come and each has a taker, `stopping()` becomes true; `all_done_soon`: and then
  the workers leave `run()`;
- `stop_returns`: the calls that return.
-/

namespace Sylar.Sched

open Trans

variable {W E F C : Type} [DecidableEq W] [DecidableEq E] {cfg : Config W E}
  {P : State W E F C → Act W E F C → Prop} {s : State W E F C}

/-! ## The end of `run()` -/

/-- From a position in `idle()` to the end of `run()`, if `stopping()` is true. -/
def IdlePos.left : IdlePos → Nat
  | .term => 6
  | .out => 7
  | .test => 8
  | .yield => 15
  | .sleep => 16

/-- From `dispatch`, without a task, to the end of `run()`. -/
def Worker.dispatchLeft (x : Worker F C) : Nat := if x.idlePos = .term then 1 else x.idlePos.left + 2

/-- How many steps a worker is from the end of `run()`, if `stopping()` is true. -/
def Worker.toDone (x : Worker F C) : Nat :=
  match x.pc with
  | .unborn | .done => 0
  | .start => 14
  | .idle => x.idlePos.left
  | .idleInc => x.idlePos.left + 1
  | .dispatch => x.dispatchLeft
  | .tickle => x.dispatchLeft + 1
  | .scan => x.dispatchLeft + 2
  | .top => x.dispatchLeft + 3
  | .reset | .idleDec => x.dispatchLeft + 4
  | .decr => x.dispatchLeft + 5
  | .exec => x.dispatchLeft + 6

/-- Once `stopping()` is true, a worker's steps lead out of `run()`. -/
theorem toDone_next [Fintype W] (hidle : cfg.idle = .plain) (hr : (system F C cfg).Reach P s) {a : Act W E F C}
    (hg : guard cfg s a) (hs : s.stopping = true) {w : W} (ha : runner a = some w) :
    ((next cfg s a).worker w).toDone < (s.worker w).toDone := by
  obtain ⟨-, hq, hact⟩ := stopping_iff.1 hs
  -- nobody has a task
  have hfree : (s.worker w).busy = false := by
    by_contra hb
    have hpos := Counting.count_pos (g := s.worker) (i := w) (show (s.worker w).busy = true by simpa using hb)
    rw [← active_eq_count hr] at hpos
    omega
  cases a with
  | enter v =>
    obtain rfl := Option.some_inj.1 ha
    have hpc : (s.worker v).pc = .start := hg
    simp [next, Worker.toDone, Worker.dispatchLeft, IdlePos.left, hpc]
  | top v | tickle v | decr v | reset v | idleDec v | idleInc v =>
    obtain rfl := Option.some_inj.1 ha
    have hpc : (s.worker v).pc = _ := hg
    simp [next, Worker.toDone, Worker.dispatchLeft, hpc]
  | finish v =>
    obtain rfl := Option.some_inj.1 ha
    rw [(ok_reach hr v).busy_of_exec (Or.inl hg.1)] at hfree
    cases hfree
  | scan v =>
    obtain rfl := Option.some_inj.1 ha
    have hpc : (s.worker v).pc = .scan := hg
    have hnone : (scan (cfg.tid v) s.mTasks).task = none := by rw [hq]; rfl
    simp [next, hnone, Worker.toDone, Worker.dispatchLeft, hpc]
  | dispatch v =>
    obtain rfl := Option.some_inj.1 ha
    have hpc : (s.worker v).pc = .dispatch := hg
    have hnone : (s.worker v).task = none := by simpa [Worker.busy, hpc] using hfree
    simp only [next, hnone]
    split_ifs with hterm
    · simp [Worker.toDone, Worker.dispatchLeft, hpc, hterm]
    · simp [Worker.toDone, Worker.dispatchLeft, hpc, hterm]
  | idleTest v | idleYield v | idleOut v | idleEnd v =>
    obtain rfl := Option.some_inj.1 ha
    obtain ⟨-, hpc, hpos⟩ := hg
    simp [next, Worker.toDone, Worker.dispatchLeft, IdlePos.left, hpc, hpos, hs]
  | idleSleep v =>
    obtain rfl := Option.some_inj.1 ha
    obtain ⟨-, hpc, hpos⟩ := hg
    simp [next, hidle, Worker.toDone, IdlePos.left, hpc, hpos]
  | idleTake v k ends =>
    rw [hg.1] at hidle
    cases hidle
  | _ => cases ha

/-- **A worker leaves `run()`**, once `stopping()` is true. -/
theorem done_soon [Fintype W] (hidle : cfg.idle = .plain) {π : (system F C cfg).Path (Orderly cfg)} {w : W}
    (hfair : π.Just (getsOn w)) :
    π.Leads (fun s => s.stopping = true ∧ (s.worker w).pc ≠ .unborn)
      (fun s => (s.worker w).pc = .done ∨ s.aborted ≠ none) := by
  refine System.Path.leads_of_rank hfair (fun s => (s.worker w).toDone) ?_ ?_
  · rintro n ⟨-, hborn⟩
    by_cases hab : (π.state n).aborted = none
    · by_cases hdone : ((π.state n).worker w).pc = .done
      · exact Or.inr (Or.inl hdone)
      · exact Or.inl ⟨hab, hborn, hdone⟩
    · exact Or.inr (Or.inr hab)
  · rintro s a hr ⟨hs, hborn⟩ ⟨-, hg⟩ ho
    refine Or.inr ⟨⟨stopping_next hr hg ho hs, born_next hidle hg hborn⟩, ?_⟩
    by_cases ha : runner a = some w
    · exact Or.inl (toDone_next hidle hr hg hs ha)
    · have hsame : ((system F C cfg).next s a).worker w = s.worker w := runner_next hidle hg hborn ha
      rw [hsame]
      exact Or.inr ⟨rfl, ha⟩

/-! ## The end of `stop()` -/

/-- A bound on the steps that a call has left, apart from those it waits for. -/
def StopPc.left (cfg : Config W E) : StopPc W → Nat
  | .out => 0
  | .join vec => vec.length + 1
  | .swap => cfg.pool.length + 2
  | .wait => cfg.pool.length + 3
  | .resume => cfg.pool.length + 4
  | .tickle => cfg.pool.length + 5
  | .assertion => cfg.pool.length + 6
  | .set => cfg.pool.length + 7
  | .check => cfg.pool.length + 8

/-- The steps of a call lead to its end. -/
theorem left_next {a : Act W E F C} (hg : guard cfg s a) (hpool : s.mPool = [] ∨ s.mPool = cfg.pool) {e : E}
    (ha : stopper a = some e) (hout : s.stop e ≠ .out) :
    ((next cfg s a).stop e).left cfg < (s.stop e).left cfg ∨ (next cfg s a).aborted ≠ none := by
  have hlen : s.mPool.length ≤ cfg.pool.length := by rcases hpool with hp | hp <;> simp [hp]
  cases a with
  | stopCall e' =>
    obtain rfl := Option.some_inj.1 ha
    exact absurd hg.1 hout
  | stopCheck e' =>
    obtain rfl := Option.some_inj.1 ha
    simp only [next]
    split_ifs <;> simp [StopPc.left, show s.stop e' = _ from hg]
  | stopSet e' | stopTickle e' | stopEnd e' =>
    obtain rfl := Option.some_inj.1 ha
    simp [next, StopPc.left, show s.stop e' = _ from hg]
  | stopBack e' =>
    obtain rfl := Option.some_inj.1 ha
    simp [next, StopPc.left, hg.1]
  | stopAssert e' =>
    obtain rfl := Option.some_inj.1 ha
    simp only [next]
    split_ifs
    · simp [StopPc.left, show s.stop e' = _ from hg]
    · simp
  | stopResume e' =>
    obtain rfl := Option.some_inj.1 ha
    simp only [next]
    split
    · simp [StopPc.left, show s.stop e' = _ from hg]
    · split_ifs
      · simp [StopPc.left, show s.stop e' = _ from hg]
      · simp
  | stopSwap e' =>
    obtain rfl := Option.some_inj.1 ha
    simp only [next, State.stopTo, Function.update_self, StopPc.left, show s.stop e' = _ from hg]
    omega
  | stopJoin e' =>
    obtain rfl := Option.some_inj.1 ha
    simp only [guard, mayJoin] at hg
    split at hg
    · rename_i hjoin
      simp [next, hjoin, StopPc.left]
    · cases hg
  | _ => cases ha

/-- What a call still has to wait for, once it is behind its own steps. -/
def awaited (cfg : Config W E) (s : State W E F C) : StopPc W → List W
  | .wait => cfg.root.toList ++ s.mPool
  | .swap => s.mPool
  | .join vec => vec
  | _ => []

omit [DecidableEq W] [DecidableEq E] in
/-- A call can go on as soon as what it waits for is over. -/
theorem stop_ready {e : E} (hout : s.stop e ≠ .out) (hroot : s.stop e = .wait → cfg.root.isSome = true)
    (hdone : ∀ w ∈ awaited cfg s (s.stop e), (s.worker w).pc = .done) :
    ∃ a : Act W E F C, stopper a = some e ∧ guard cfg s a := by
  cases hpc : s.stop e with
  | out => exact absurd hpc hout
  | check => exact ⟨.stopCheck e, rfl, hpc⟩
  | set => exact ⟨.stopSet e, rfl, hpc⟩
  | assertion => exact ⟨.stopAssert e, rfl, hpc⟩
  | tickle => exact ⟨.stopTickle e, rfl, hpc⟩
  | resume => exact ⟨.stopResume e, rfl, hpc⟩
  | wait =>
    obtain ⟨w, hw⟩ := Option.isSome_iff_exists.1 (hroot hpc)
    refine ⟨.stopBack e, rfl, hpc, w, hw, hdone w ?_⟩
    simp [hpc, awaited, hw]
  | swap => exact ⟨.stopSwap e, rfl, hpc⟩
  | join vec =>
    cases vec with
    | nil => exact ⟨.stopEnd e, rfl, hpc⟩
    | cons w vec =>
      refine ⟨.stopJoin e, rfl, ?_⟩
      have hw := hdone w (by simp [hpc, awaited])
      simp [guard, mayJoin, hpc, hw]

/-- What a call has seen to: `m_stopping` is set, and what it waits for has been created. -/
def Called (cfg : Config W E) (s : State W E F C) : StopPc W → Prop
  | .out | .check | .set => True
  | .assertion | .tickle | .resume | .swap => s.mStopping = true
  | .wait => s.mStopping = true ∧ cfg.root.isSome = true ∧ ∀ w ∈ cfg.root, (s.worker w).pc ≠ .unborn
  | .join vec => s.mStopping = true ∧ ∀ w ∈ vec, (s.worker w).pc ≠ .unborn

/-- Every thread in `m_pool` has been created. -/
def PoolBorn (s : State W E F C) : Prop := ∀ w ∈ s.mPool, (s.worker w).pc ≠ .unborn

theorem poolBorn_next (hidle : cfg.idle = .plain) {a : Act W E F C} (hg : guard cfg s a) (h : PoolBorn s) :
    PoolBorn (next cfg s a) := by
  have hkeep : (next cfg s a).mPool = s.mPool → PoolBorn (next cfg s a) := by
    intro hpool w hw
    exact born_next hidle hg (h w (hpool ▸ hw))
  cases a with
  | start e =>
    simp only [next]
    split_ifs
    · exact h
    · exact h
    · intro w hw
      dsimp only
      split_ifs with hn
      · simp
      · exact fun hu => hn ⟨hw, hu⟩
  | stopSwap e => exact fun w hw => absurd hw List.not_mem_nil
  | _ =>
    apply hkeep
    simp only [next, State.push]
    repeat' split
    all_goals rfl

theorem Called.keep (hidle : cfg.idle = .plain) {a : Act W E F C} (hg : guard cfg s a) {pc : StopPc W}
    (h : Called cfg s pc) : Called cfg (next cfg s a) pc := by
  cases pc with
  | out | check | set => trivial
  | assertion | tickle | resume | swap => exact mStopping_next a h
  | wait => exact ⟨mStopping_next a h.1, h.2.1, fun w hw => born_next hidle hg (h.2.2 w hw)⟩
  | join vec => exact ⟨mStopping_next a h.1, fun w hw => born_next hidle hg (h.2 w hw)⟩

theorem called_next (hidle : cfg.idle = .plain) {a : Act W E F C} (hg : guard cfg s a) (hpool : PoolBorn s)
    (hs : ∀ e, Called cfg s (s.stop e)) : ∀ e, Called cfg (next cfg s a) ((next cfg s a).stop e) := by
  intro e
  have hkeep := (hs e).keep hidle hg
  by_cases ha : stopper a = some e
  swap
  · rw [stop_next s ha]
    exact hkeep
  cases a with
  | stopCall e' =>
    obtain rfl := Option.some_inj.1 ha
    simp [next, Called]
  | stopCheck e' =>
    obtain rfl := Option.some_inj.1 ha
    simp only [next]
    split_ifs <;> simp [Called]
  | stopSet e' =>
    obtain rfl := Option.some_inj.1 ha
    simp [next, Called]
  | stopAssert e' =>
    obtain rfl := Option.some_inj.1 ha
    have he := hs e'
    rw [show s.stop e' = .assertion from hg] at he
    simp only [next]
    split_ifs
    · simpa [Called] using he
    · simpa [Called, show s.stop e' = .assertion from hg] using he
  | stopTickle e' =>
    obtain rfl := Option.some_inj.1 ha
    have he := hs e'
    rw [show s.stop e' = .tickle from hg] at he
    simpa [next, Called] using he
  | stopBack e' =>
    obtain rfl := Option.some_inj.1 ha
    have he := hs e'
    rw [hg.1] at he
    simpa [next, Called] using he.1
  | stopResume e' =>
    obtain rfl := Option.some_inj.1 ha
    have he := hs e'
    rw [show s.stop e' = .resume from hg] at he
    simp only [next]
    cases hroot : cfg.root with
    | none => simpa [Called] using he
    | some w =>
      dsimp only
      split_ifs
      · simpa [Called, hroot] using he
      · simpa [Called, show s.stop e' = .resume from hg] using he
  | stopSwap e' =>
    obtain rfl := Option.some_inj.1 ha
    have he := hs e'
    rw [show s.stop e' = .swap from hg] at he
    simp only [next, State.stopTo, Function.update_self]
    exact ⟨he, hpool⟩
  | stopJoin e' =>
    obtain rfl := Option.some_inj.1 ha
    have hjoin : mayJoin s e' = true := hg
    unfold mayJoin at hjoin
    split at hjoin
    · rename_i w vec hvec
      have he := hs e'
      rw [hvec] at he
      simp only [next, hvec, State.stopTo, Function.update_self]
      exact ⟨he.1, fun v hv => he.2 v (List.mem_cons_of_mem _ hv)⟩
    · cases hjoin
  | stopEnd e' =>
    obtain rfl := Option.some_inj.1 ha
    simp [next, Called]
  | _ => cases ha

/-- What the calls have seen to, in every run. -/
theorem called_reach (hidle : cfg.idle = .plain) (h : (system F C cfg).Reach P s) :
    (s.mPool = [] ∨ s.mPool = cfg.pool) ∧ PoolBorn s ∧ ∀ e, Called cfg s (s.stop e) := by
  apply h.inv (I := fun s => (s.mPool = [] ∨ s.mPool = cfg.pool) ∧ PoolBorn s ∧ ∀ e, Called cfg s (s.stop e))
  · rintro s rfl
    exact ⟨Or.inl rfl, fun _ hw => absurd hw List.not_mem_nil, fun _ => trivial⟩
  · rintro s a ⟨hpool, hborn, hs⟩ hen -
    exact ⟨mPool_next a hpool, poolBorn_next hidle hen.2 hborn, called_next hidle hen.2 hborn hs⟩

/-- What a call waits for has been created. -/
theorem awaited_born (hidle : cfg.idle = .plain) (h : (system F C cfg).Reach P s) {e : E} {w : W}
    (hw : w ∈ awaited cfg s (s.stop e)) : (s.worker w).pc ≠ .unborn := by
  obtain ⟨-, hborn, hs⟩ := called_reach hidle h
  have he := hs e
  cases hpc : s.stop e with
  | wait =>
    rw [hpc] at he hw
    rcases List.mem_append.1 hw with hw | hw
    · exact he.2.2 w (Option.mem_toList.1 hw)
    · exact hborn w hw
  | swap =>
    rw [hpc] at hw
    exact hborn w hw
  | join vec =>
    rw [hpc] at he hw
    exact he.2 w hw
  | _ =>
    rw [hpc] at hw
    exact absurd hw List.not_mem_nil

/-- **A thread in `stop()` gets on** where it can. -/
def returns (cfg : Config W E) (e : E) : System.Demand (State W E F C) (Act W E F C) where
  ready s := s.aborted = none ∧ s.stop e ≠ .out ∧ ∃ a, stopper a = some e ∧ guard cfg s a
  serves _ a := stopper a = some e

/-- A call that has nothing to wait for gets to where `q` holds or to its end. -/
theorem call_leads (hidle : cfg.idle = .plain) {π : (system F C cfg).Path P} {e : E} (hfair : π.Just (returns cfg e))
    {p q : State W E F C → Prop} (hp : ∀ s a, (system F C cfg).Reach P s → p s → guard cfg s a → P s a →
      p (next cfg s a) ∨ q (next cfg s a))
    (hdone : ∀ n, p (π.state n) → ∀ w ∈ awaited cfg (π.state n) ((π.state n).stop e),
      ((π.state n).worker w).pc = .done) :
    π.Leads (fun s => p s ∧ s.stop e ≠ .out) (fun s => q s ∨ s.stop e = .out ∨ s.aborted ≠ none) := by
  refine System.Path.leads_of_rank hfair (fun s => (s.stop e).left cfg) ?_ ?_
  · rintro n ⟨hpn, hout⟩
    by_cases hab : (π.state n).aborted = none
    · have hroot : (π.state n).stop e = .wait → cfg.root.isSome = true := by
        intro hwait
        have he := (called_reach hidle (π.reach n)).2.2 e
        rw [hwait] at he
        exact he.2.1
      exact Or.inl ⟨hab, hout, stop_ready hout hroot (hdone n hpn)⟩
    · exact Or.inr (Or.inr (Or.inr hab))
  · rintro s a hr ⟨hps, hout⟩ ⟨-, hg⟩ hP
    rcases hp s a hr hps hg hP with hps' | hq
    swap
    · exact Or.inl (Or.inl hq)
    by_cases hout' : (next cfg s a).stop e = .out
    · exact Or.inl (Or.inr (Or.inl hout'))
    by_cases ha : stopper a = some e
    · rcases left_next hg (called_reach hidle hr).1 ha hout with hlt | hab
      · exact Or.inr ⟨⟨hps', hout'⟩, Or.inl hlt⟩
      · exact Or.inl (Or.inr (Or.inr hab))
    · refine Or.inr ⟨⟨hps', hout'⟩, Or.inr ⟨?_, ha⟩⟩
      show ((next cfg s a).stop e).left cfg = _
      rw [stop_next s ha]

/-- A call sets `m_stopping`, if it does not return at once. -/
theorem mStopping_soon (hidle : cfg.idle = .plain) {π : (system F C cfg).Path P} {e : E}
    (hfair : π.Just (returns cfg e)) :
    π.Leads (fun s => s.stop e ≠ .out) (fun s => s.mStopping = true ∨ s.stop e = .out ∨ s.aborted ≠ none) := by
  intro n hn
  by_cases hstop : (π.state n).mStopping = true
  · exact ⟨n, Nat.le_refl n, Or.inl hstop⟩
  refine call_leads hidle hfair (p := fun s => s.mStopping = false) (q := fun s => s.mStopping = true) ?_ ?_ n
    ⟨by simpa using hstop, hn⟩
  · intro s a _ _ _ _
    cases (next cfg s a).mStopping with
    | false => exact Or.inl rfl
    | true => exact Or.inr rfl
  · intro m hm w hw
    -- before that a call waits for nothing
    have he := (called_reach hidle (π.reach m)).2.2 e
    cases hpc : (π.state m).stop e <;> rw [hpc] at he hw <;> simp [awaited, Called, hm] at he hw

/-! ## The queue is drained -/

/-- Where all that has been accepted is finished, `stopping()` is true, if `m_stopping` is set. -/
theorem stopping_of_finished [Fintype W] (hr : (system F C cfg).Reach P s) (hstop : s.mStopping = true)
    (hfin : ∀ x ∈ s.accepted, x ∈ s.finished) : s.stopping = true := by
  have haccount : (s.accepted : Multiset (Entry F C)) =
      s.mTasks + ∑ w, Ledger.inHand (s.worker w).task + s.finished := Ledger.account ((toLedger F C P cfg).reach hr)
  have hnodup : (s.accepted : Multiset (Entry F C)).Nodup := by
    have hord := (Ledger.ordered_reach ((toLedger F C P cfg).reach hr)).pairwise
    exact Multiset.coe_nodup.2 (hord.imp fun hlt heq => absurd (congrArg Entry.seq heq) (Nat.ne_of_lt hlt))
  -- so nothing is queued or held as well
  have hno : ∀ x ∈ (s.mTasks : Multiset (Entry F C)) + ∑ w, Ledger.inHand (s.worker w).task, False := by
    intro x hx
    have hacc : x ∈ s.accepted := by
      rw [← Multiset.mem_coe, haccount]
      exact Multiset.mem_add.2 (Or.inl hx)
    rw [haccount] at hnodup
    exact Multiset.disjoint_left.1 (Multiset.nodup_add.1 hnodup).2.2 hx (hfin x hacc)
  refine stopping_iff.2 ⟨hstop, ?_, ?_⟩
  · refine List.eq_nil_iff_forall_not_mem.2 fun x hx => hno x (Multiset.mem_add.2 (Or.inl hx))
  · rw [active_eq_count hr]
    by_contra hpos
    obtain ⟨w, hw⟩ := Counting.exists_of_count_pos (Nat.pos_of_ne_zero hpos)
    have hsome : (s.worker w).task.isSome = true := by
      unfold Worker.busy at hw
      split at hw
      · cases hw
      · exact hw
    obtain ⟨x, hx⟩ := Option.isSome_iff_exists.1 hsome
    refine hno x (Multiset.mem_add.2 (Or.inr (Multiset.mem_sum.2 ⟨w, Finset.mem_univ w, ?_⟩)))
    simp [Ledger.inHand, hx]

/-- **The queue is drained**, if no more tasks come and each has a taker. -/
theorem drained_soon [Fintype W] (hidle : cfg.idle = .plain) (π : (system F C cfg).Path (Orderly cfg))
    (hfair : ∀ w, π.Just (getsOn w)) (hab : ∀ n, (π.state n).aborted = none) {N : Nat}
    (hlast : ∀ n ≥ N, (π.state n).accepted = (π.state N).accepted)
    (htaker : ∀ x ∈ (π.state N).accepted, ∃ k, Taker cfg x (π.state k)) {n : Nat}
    (hstop : (π.state n).mStopping = true) :
    ∃ m ≥ n, (π.state m).stopping = true := by
  obtain ⟨M, hM, hfin⟩ := π.all_leads (q := fun (x : Entry F C) s => x ∈ s.finished)
    (fun x i j hij =>
      π.stable (p := fun s => x ∈ s.finished) (fun s a _ hx _ _ => finished_next hx) hij)
    (n := N) (l := (π.state N).accepted) (fun x hx => by
      obtain ⟨k, w, hw, hborn⟩ := htaker x hx
      exact executed_of_taker hidle hfair hab hw hx hborn)
  refine ⟨max n M, Nat.le_max_left n M, stopping_of_finished (π.reach _) ?_ ?_⟩
  · exact π.stable (p := fun s => s.mStopping = true) (fun s a _ hs _ _ => mStopping_next a hs)
      (Nat.le_max_left n M) hstop
  · intro x hx
    rw [hlast _ (hM.trans (Nat.le_max_right n M))] at hx
    exact π.stable (p := fun s => x ∈ s.finished) (fun s a _ hx _ _ => finished_next hx)
      (Nat.le_max_right n M) (hfin x hx)

/-- A worker that has left `run()` stays away. -/
theorem done_next {a : Act W E F C} (hidle : cfg.idle = .plain) (hg : guard cfg s a) (hstop : s.mStopping = true)
    {w : W} (hw : (s.worker w).pc = .done) : ((next cfg s a).worker w).pc = .done := by
  have hborn := born_next hidle hg (w := w) (by simp [hw])
  exact (absent_next hg hstop (Or.inl hw)).resolve_right fun hn => hborn hn.2

/-! ## The calls that return -/

theorem stopped_keep {a : Act W E F C} {e : E} (h : s.stopped e = true) : (next cfg s a).stopped e = true := by
  have hup : ∀ e', Function.update s.stopped e' true e = true := by
    intro e'
    rcases eq_or_ne e e' with rfl | hne
    · exact Function.update_self ..
    · rw [Function.update_of_ne hne]
      exact h
  cases a with
  | stopCheck e' =>
    simp only [next]
    split_ifs
    · exact hup e'
    · exact h
  | stopEnd e' => exact hup e'
  | _ =>
    simp only [next, State.push]
    repeat' split
    all_goals exact h

/-- A call that comes to its end leaves its mark. -/
theorem returned_next {a : Act W E F C} (hg : guard cfg s a) {e : E} (h : s.stop e ≠ .out ∨ s.stopped e = true) :
    (next cfg s a).stop e ≠ .out ∨ (next cfg s a).stopped e = true := by
  by_cases ha : stopper a = some e
  swap
  · rw [stop_next s ha]
    exact h.imp_right stopped_keep
  rcases h with h | h
  swap
  · exact Or.inr (stopped_keep h)
  cases a with
  | stopCall e' | stopSet e' | stopTickle e' | stopBack e' | stopSwap e' =>
    obtain rfl := Option.some_inj.1 ha
    simp [next]
  | stopCheck e' =>
    obtain rfl := Option.some_inj.1 ha
    simp only [next]
    split_ifs <;> simp
  | stopAssert e' =>
    obtain rfl := Option.some_inj.1 ha
    simp only [next]
    split_ifs
    · simp
    · exact Or.inl h
  | stopResume e' =>
    obtain rfl := Option.some_inj.1 ha
    simp only [next]
    split
    · simp
    · split_ifs
      · simp
      · exact Or.inl h
  | stopJoin e' =>
    obtain rfl := Option.some_inj.1 ha
    simp only [next]
    split
    · simp
    · exact Or.inl h
  | stopEnd e' =>
    obtain rfl := Option.some_inj.1 ha
    simp [next]
  | _ => cases ha

/-- Once `stopping()` is true nothing more is accepted. -/
theorem accepted_end [Fintype W] (hr : (system F C cfg).Reach P s) {a : Act W E F C} (hg : guard cfg s a)
    (ho : Orderly cfg s a) (hs : s.stopping = true) : (next cfg s a).accepted = s.accepted := by
  cases a with
  | scheduleLock t fc thr => exact absurd rfl (no_schedule hr hg ho hs t fc thr)
  | _ =>
    simp only [next]
    repeat' split
    all_goals rfl

/-- All workers that are ever created leave `run()`, once `stopping()` is true. -/
theorem all_done_soon [Fintype W] (hidle : cfg.idle = .plain) (π : (system F C cfg).Path (Orderly cfg))
    (hfair : ∀ w, π.Just (getsOn w)) (hab : ∀ n, (π.state n).aborted = none) {n : Nat}
    (hs : (π.state n).stopping = true) :
    ∃ m ≥ n, ∀ w, (∃ k, ((π.state k).worker w).pc ≠ .unborn) → ((π.state m).worker w).pc = .done := by
  have hstable : ∀ {i j}, i ≤ j → (π.state i).stopping = true → (π.state j).stopping = true := fun hij hi =>
    π.stable (p := fun s => s.stopping = true)
      (fun s a hr hs hen ho => stopping_next hr hen.2 ho hs) hij hi
  obtain ⟨m, hm, hall⟩ := π.all_leads
    (q := fun (w : W) s => s.stopping = true ∧ ((∃ k, ((π.state k).worker w).pc ≠ .unborn) → (s.worker w).pc = .done))
    (fun w i j hij => π.stable
      (p := fun s => s.stopping = true ∧ ((∃ k, ((π.state k).worker w).pc ≠ .unborn) → (s.worker w).pc = .done))
      (fun s a hr h hen ho => ⟨stopping_next hr hen.2 ho h.1, fun hborn =>
        done_next hidle hen.2 (stopping_iff.1 h.1).1 (h.2 hborn)⟩) hij) (n := n)
    (l := Finset.univ.toList) (fun w _ => by
      by_cases hborn : ∃ k, ((π.state k).worker w).pc ≠ .unborn
      · obtain ⟨k, hk⟩ := hborn
        have hk' : ((π.state (max n k)).worker w).pc ≠ .unborn :=
          π.stable (p := fun s => (s.worker w).pc ≠ .unborn)
            (fun s a _ hb hen _ => born_next hidle hen.2 hb) (Nat.le_max_right n k) hk
        obtain ⟨m, hm, hdone⟩ := done_soon hidle (hfair w) (max n k) ⟨hstable (Nat.le_max_left n k) hs, hk'⟩
        have hnm := (Nat.le_max_left n k).trans hm
        exact ⟨m, hnm, hstable hnm hs, fun _ => hdone.resolve_right (not_not_intro (hab m))⟩
      · exact ⟨n, Nat.le_refl n, hs, fun h => absurd h hborn⟩)
  exact ⟨m, hm, fun w => (hall w (by simp)).2⟩

/-- **Which calls of `stop()` return.** In a fair execution of the base class in which no assertion fails and no call
finds the pool swapped out by another one, a call of `stop()` returns exactly if only finitely many tasks are accepted
and for each of them one of the workers that may take it is ever created. -/
theorem stop_returns [Fintype W] (cfg : Config W E) (hidle : cfg.idle = .plain)
    (π : (system F C cfg).Path fun s a => Orderly cfg s a ∧ TakesPool cfg s a) (hfair : ∀ w, π.Just (getsOn w))
    (hstop : ∀ e, π.Just (returns cfg e)) (hab : ∀ n, (π.state n).aborted = none) {n : Nat} {e : E}
    (he : (π.state n).stop e ≠ .out) :
    (∃ m ≥ n, (π.state m).stop e = .out) ↔
      ∃ N, (∀ k ≥ N, (π.state k).accepted = (π.state N).accepted) ∧
        ∀ x ∈ (π.state N).accepted, ∃ w, x.skipped (cfg.tid w) = false ∧ ∃ k, ((π.state k).worker w).pc ≠ .unborn := by
  constructor
  · rintro ⟨m, hm, hout⟩
    have hstopped : (π.state m).stopped e = true :=
      (π.stable (p := fun s => s.stop e ≠ .out ∨ s.stopped e = true)
        (fun s a _ h hen _ => returned_next hen.2 h) hm (Or.inl he)).resolve_left (not_not_intro hout)
    have hs : (π.state m).stopping = true := by
      refine (gone_reach hidle (π.reach m)).resolve_right fun hgone => ?_
      have hge := hgone e
      simp [gone, hstopped] at hge
    refine ⟨m, fun k hk => ?_, fun x hx => ?_⟩
    · exact (π.stable (p := fun s => s.stopping = true ∧ s.accepted = (π.state m).accepted)
        (fun s a hr h hen ho => ⟨stopping_next hr hen.2 ho.1 h.1, (accepted_end hr hen.2 ho.1 h.1).trans h.2⟩) hk
        ⟨hs, rfl⟩).2
    · have htaker : Taker cfg x (π.state m) := by
        rcases whereabouts (π.reach m) hx with hq | hh | hf
        · rw [(stopping_iff.1 hs).2.1] at hq
          cases hq
        · exact taker_of_held (π.reach m) hh
        · exact taker_of_finished hidle (π.reach m) hf
      obtain ⟨w, hw, hborn⟩ := htaker
      exact ⟨w, hw, m, hborn⟩
  · rintro ⟨N, hlast, htaker⟩
    let ρ := π.mono (Q := Orderly cfg) fun _ _ h => h.1
    have hend : ∀ j ≥ n, (π.state j).stop e = .out → ∃ m ≥ n, (π.state m).stop e = .out := fun j hj h => ⟨j, hj, h⟩
    -- `m_stopping` is set
    obtain ⟨i, hi, hset⟩ := mStopping_soon hidle (hstop e) n he
    rcases hset with hset | hout | hno
    swap
    · exact hend i hi hout
    swap
    · exact absurd (hab i) hno
    -- the queue is drained, and then the workers leave
    obtain ⟨j, hj, hs⟩ := drained_soon hidle ρ hfair hab hlast
      (fun x hx => by
        obtain ⟨w, hw, k, hborn⟩ := htaker x hx
        exact ⟨k, w, hw, hborn⟩) (n := i) hset
    obtain ⟨m, hm, hdone⟩ := all_done_soon hidle ρ hfair hab hs
    have hnm : n ≤ m := hi.trans (hj.trans hm)
    by_cases hout : (π.state m).stop e = .out
    · exact hend m hnm hout
    -- nothing is left to wait for
    obtain ⟨l, hl, hout'⟩ := call_leads hidle (hstop e) (q := fun _ => False)
      (p := fun s => s.mStopping = true ∧ ∀ w, (∃ k, ((π.state k).worker w).pc ≠ .unborn) → (s.worker w).pc = .done)
      (fun s a _ h hg _ => Or.inl ⟨mStopping_next a h.1, fun w hw => done_next hidle hg h.1 (h.2 w hw)⟩)
      (fun k h w hw => h.2 w ⟨k, awaited_born hidle (π.reach k) hw⟩) m
      ⟨⟨π.stable (p := fun s => s.mStopping = true) (fun s a _ h _ _ => mStopping_next a h)
        (hj.trans hm) hset, hdone⟩, hout⟩
    exact hend l (hnm.trans hl) ((hout'.resolve_left id).resolve_right (not_not_intro (hab l)))

theorem stop_returns_duo : ∃ π : (system Nat Nat (duo .plain)).Path
      (fun s a => Orderly (duo .plain) s a ∧ TakesPool (duo .plain) s a),
    (π.state 4).stop 1 ≠ .out ∧ ∃ m ≥ 4, (π.state m).stop 1 = .out := by
  have h : (System.exec (system Nat Nat (duo .plain))
      (fun s a => Orderly (duo .plain) s a ∧ TakesPool (duo .plain) s a) (initial _ _ _ _)
      (drainRun 0 1 0 1)).isSome = true := by
    decide
  have hdone : ∀ w, (((System.exec (system Nat Nat (duo .plain))
      (fun s a => Orderly (duo .plain) s a ∧ TakesPool (duo .plain) s a) (initial _ _ _ _)
      (drainRun 0 1 0 1)).get h).worker w).pc = .done := by
    decide +revert
  have hout : ∀ e, ((System.exec (system Nat Nat (duo .plain))
      (fun s a => Orderly (duo .plain) s a ∧ TakesPool (duo .plain) s a) (initial _ _ _ _)
      (drainRun 0 1 0 1)).get h).stop e = .out := by
    decide +revert
  have hmay : ∀ x ∈ ((System.exec (system Nat Nat (duo .plain))
      (fun s a => Orderly (duo .plain) s a ∧ TakesPool (duo .plain) s a) (initial _ _ _ _)
      (drainRun 0 1 0 1)).get h).accepted, x.skipped 10 = false := by
    decide +revert
  have hcall : (((System.steps_exec h).path rfl).state 4).stop 1 ≠ .out := by decide +revert
  refine ⟨(System.steps_exec h).path rfl, hcall, (stop_returns (duo .plain) rfl _ ?_ ?_ ?_ hcall).2 ?_⟩
  · exact fun w => System.Steps.just_of_end rfl _ fun hready => hready.2.2 (hdone w)
  · exact fun e => System.Steps.just_of_end rfl _ fun hready => hready.2.1 (hout e)
  · exact alive_of_end rfl _ rfl
  · refine ⟨(drainRun 0 1 0 1).length, fun k hk => ?_, fun x hx => ⟨0, ?_, (drainRun 0 1 0 1).length, ?_⟩⟩
    · rw [System.Steps.path_end rfl _ hk, System.Steps.path_end rfl _ (Nat.le_refl _)]
    · rw [System.Steps.path_end rfl _ (Nat.le_refl _)] at hx
      exact hmay x hx
    · rw [System.Steps.path_end rfl _ (Nat.le_refl _), hdone]
      simp

end Sylar.Sched
