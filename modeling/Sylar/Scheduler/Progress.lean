import Mathlib.Data.Prod.Lex
import Mathlib.Order.WellFounded
import Sylar.Lib.Fairness
import Sylar.Scheduler.Shutdown

/-!
# Every task gets its turn

How long a task waits in `m_tasks`. A scan takes the first task that its worker may take, so the scans of the workers
that may take a given one are used up by the tasks in front of it.

- `ahead`, `ahead_next`: the tasks in front of a task; `bounded_bypass`: so many scans at most pass it by;
- `Worker.distance`, `distance_next`: how far a worker is from its next scan;
- `fetched_soon`, `finished_soon`: under the demand that a worker in `run()` gets on (`getsOn`) a task that it may take
  is fetched, and a task that it has fetched is finished;
- `executed`: the two together, for every accepted task; `alive_of_end`: for finite runs.
-/

namespace Sylar.Sched

open Trans

variable {W E F C : Type} [DecidableEq W] [DecidableEq E] {cfg : Config W E}

/-! ## The tasks in front -/

/-- The tasks in front of `e`. -/
def ahead (e : Entry F C) (s : State W E F C) : Nat := s.mTasks.countP fun x => decide (x.seq < e.seq)

/-- A scan by a worker that may take `e`. -/
def mayTake (cfg : Config W E) (e : Entry F C) : State W E F C → Act W E F C → Bool
  | _, .scan w => !e.skipped (cfg.tid w)
  | _, _ => false

variable {P : State W E F C → Act W E F C → Prop} {s : State W E F C}

/-- The queue is in the order of acceptance. -/
theorem queue_sorted (h : (system F C cfg).Reach P s) : s.mTasks.Pairwise (fun a b => a.seq < b.seq) := by
  have hord := Ledger.ordered_reach ((toLedger F C P cfg).reach h)
  exact hord.pairwise.sublist hord.sub

/-- A queued task was accepted before the next one will be. -/
theorem seq_lt_accepted (h : (system F C cfg).Reach P s) {e : Entry F C} (he : e ∈ s.mTasks) :
    e.seq < s.accepted.length := by
  have hord := Ledger.ordered_reach ((toLedger F C P cfg).reach h)
  exact hord.seq_lt (hord.sub.subset he)

/-- Nobody gets in front of a queued task, and a scan that could have taken it has taken one from in front of it. -/
theorem ahead_next (hr : (system F C cfg).Reach P s) {a : Act W E F C} {e : Entry F C} (he : e ∈ s.mTasks)
    (he' : e ∈ (next cfg s a).mTasks) : (mayTake cfg e s a).toNat + ahead e (next cfg s a) ≤ ahead e s := by
  cases a with
  | scheduleLock t fc thr =>
    have hlt := seq_lt_accepted hr he
    have hnew : ¬ s.accepted.length < e.seq := by omega
    simp only [mayTake, ahead, next, State.push]
    split_ifs <;> simp [hnew]
  | scan w =>
    cases hb : (scan (cfg.tid w) s.mTasks).task with
    | none =>
      have hskip := (scan_none hb).2 e he
      simp [mayTake, ahead, next, hb, hskip]
    | some b =>
      obtain ⟨l₁, l₂, hl, hskip, -, hrest⟩ := scan_some hb
      have hne : b.task.nonEmpty = true :=
        Ledger.nonEmpty_queue ((toLedger F C P cfg).reach hr) b (by simp [toLedger, ledger, hl])
      simp only [next, hb, if_pos hne, hrest] at he' ⊢
      simp only [mayTake, ahead, hl, List.countP_append, List.countP_cons]
      cases hmay : e.skipped (cfg.tid w) with
      | true =>
        simp only [Bool.not_true, Bool.toNat_false]
        omega
      | false =>
        -- `e` is behind `b`, since everything before `b` was passed by
        have hin : e ∈ l₂ := by
          rcases List.mem_append.1 he' with h₁ | h₂
          · have hs := hskip e h₁
            rw [hmay] at hs
            cases hs
          · exact h₂
        have hsort := queue_sorted hr
        rw [hl] at hsort
        have hlt : b.seq < e.seq := (List.pairwise_cons.1 (List.pairwise_append.1 hsort).2.1).1 e hin
        simp only [Bool.not_false, Bool.toNat_true, decide_eq_true hlt, if_true]
        omega
  | _ =>
    simp only [mayTake, Bool.toNat_false, Nat.zero_add]
    refine le_of_eq ?_
    simp only [ahead, next]
    repeat' split
    all_goals rfl

theorem fetched_next {a : Act W E F C} {e : Entry F C} (he : e ∈ s.fetched) : e ∈ (next cfg s a).fetched := by
  cases a with
  | scan w =>
    simp only [next]
    split
    · exact he
    · split_ifs
      · exact List.mem_append_left _ he
      · exact he
  | _ =>
    simp only [next, State.push]
    repeat' split
    all_goals exact he

/-- A task that leaves the queue has been fetched. -/
theorem fetched_of_gone (hr : (system F C cfg).Reach P s) {a : Act W E F C} {e : Entry F C} (he : e ∈ s.mTasks) :
    e ∈ (next cfg s a).mTasks ∨ e ∈ (next cfg s a).fetched := by
  cases a with
  | scan w =>
    cases hb : (scan (cfg.tid w) s.mTasks).task with
    | none => exact Or.inl (by simpa [next, hb] using he)
    | some b =>
      obtain ⟨l₁, l₂, hl, -, -, hrest⟩ := scan_some hb
      have hne : b.task.nonEmpty = true :=
        Ledger.nonEmpty_queue ((toLedger F C P cfg).reach hr) b (by simp [toLedger, ledger, hl])
      simp only [next, hb, if_pos hne, hrest]
      rw [hl] at he
      rcases List.mem_append.1 he with he | he
      · exact Or.inl (List.mem_append_left _ he)
      · rcases List.mem_cons.1 he with rfl | he
        · exact Or.inr (List.mem_append_right _ (List.mem_singleton_self _))
        · exact Or.inl (List.mem_append_right _ he)
  | _ =>
    rcases queued_next cfg _ he with hq | ⟨w, ⟨ha, -⟩, -⟩
    · exact Or.inl hq
    · cases ha

/-- **Bounded bypass.** From any reachable state on, a queued task is passed by at most as many scans of workers that
may take it as there are tasks in front of it, whatever is scheduled meanwhile: then it has been fetched. -/
theorem bounded_bypass (cfg : Config W E) {s t : State W E F C} {as : List (Act W E F C)} {e : Entry F C}
    (hr : (system F C cfg).Reach Always s) (he : e ∈ s.mTasks) (h : (system F C cfg).Steps Always s as t) :
    e ∈ t.mTasks ∧ (system F C cfg).tally (mayTake cfg e) s as + ahead e t ≤ ahead e s ∨ e ∈ t.fetched := by
  refine h.tally_until (q := fun s => e ∈ s.mTasks) (r := fun s => e ∈ s.fetched) (ahead e) ?_ ?_ hr he
  · intro s a hr _ _ hq
    rcases fetched_of_gone hr (a := a) hq with hq' | hf
    · exact Or.inl ⟨hq', ahead_next hr hq hq'⟩
    · exact Or.inr hf
  · intro s a _ hf _ _
    exact fetched_next hf

/-- `start()`, and two tasks before the first scan. -/
def queueRun (w : Fin 2) (e t : Fin 3) : List (Act (Fin 2) (Fin 3) Nat Nat) :=
  [.start e, .enter w, .top w, .scheduleLock (.inr t) (.callback (some 3)) (-1), .wakeUp (.inr t),
    .scheduleLock (.inr t) (.callback (some 4)) (-1)]

theorem bounded_bypass_duo : ∃ (s t : State (Fin 2) (Fin 3) Nat Nat) (e : Entry Nat Nat), e ∈ s.mTasks ∧
    ahead e s = 1 ∧ (e ∈ t.mTasks ∧
      (system Nat Nat (duo .plain)).tally (mayTake (duo .plain) e) s [.scan 0] + ahead e t ≤ ahead e s ∨
        e ∈ t.fetched) := by
  have h : (System.exec (system Nat Nat (duo .plain)) Always (initial _ _ _ _) (queueRun 0 0 1)).isSome = true := by
    decide
  have hscan : (System.exec (system Nat Nat (duo .plain)) Always ((System.exec (system Nat Nat (duo .plain)) Always
      (initial _ _ _ _) (queueRun 0 0 1)).get h) [.scan 0]).isSome = true := by
    decide +revert
  have he : (⟨1, .make (.callback (some 4)) (-1)⟩ : Entry Nat Nat) ∈ ((System.exec (system Nat Nat (duo .plain)) Always
      (initial _ _ _ _) (queueRun 0 0 1)).get h).mTasks := by
    decide +revert
  have hr := System.reach_exec (M := system Nat Nat (duo .plain)) rfl h
  exact ⟨_, _, _, he, rfl, bounded_bypass (duo .plain) hr he (System.steps_exec hscan)⟩

/-! ## The way to the next scan -/

/-- In `run()`. -/
def Worker.live (x : Worker F C) : Prop := x.pc ≠ .unborn ∧ x.pc ≠ .done

/-- How many steps a worker is from its next scan, if its idle fiber stays in its loop. -/
def Worker.distance (x : Worker F C) : Nat :=
  match x.pc with
  | .unborn | .done | .scan => 0
  | .top => 1
  | .start | .reset | .idleDec => 2
  | .decr => 3
  | .exec => 4
  | .idle =>
    match x.idlePos with
    | .yield | .term => 3
    | .sleep | .out => 4
    | .test => 5
  | .idleInc => 6
  | .dispatch => 7
  | .tickle => 8

/-- The worker whose code in `run()` a step is. The calls of its tasks are not. -/
def runner : Act W E F C → Option W
  | .enter w | .top w | .scan w | .tickle w | .dispatch w | .finish w | .decr w | .reset w | .idleInc w | .idleTest w
    | .idleSleep w | .idleYield w | .idleOut w | .idleEnd w | .idleTake w _ _ | .idleDec w => some w
  | _ => none

/-- A worker stays where it is while others move. -/
theorem runner_next (hidle : cfg.idle = .plain) {a : Act W E F C} (hg : guard cfg s a) {w : W}
    (hw : (s.worker w).pc ≠ .unborn) (ha : runner a ≠ some w) : (next cfg s a).worker w = s.worker w := by
  have hset : ∀ v x, runner a = some v → Function.update s.worker v x w = s.worker w := by
    intro v x hv
    apply Function.update_of_ne
    rintro rfl
    exact ha hv
  cases a with
  | start e =>
    simp only [next]
    split_ifs
    · rfl
    · rfl
    · exact if_neg fun hu => hw hu.2
  | stopResume e =>
    simp only [next]
    split
    · rfl
    · split_ifs with hu
      · apply Function.update_of_ne
        rintro rfl
        exact hw hu
      · rfl
  | idleMoved v pos =>
    rw [show cfg.idle = .hooked from hg] at hidle
    cases hidle
  | scheduleLock t fc thr =>
    simp only [next, State.push]
    split_ifs <;> rfl
  | stopCheck e | stopAssert e =>
    simp only [next]
    split_ifs <;> rfl
  | stopJoin e =>
    simp only [next]
    split <;> rfl
  | wakeUp t | stopCall e | stopSet e | stopTickle e | stopBack e | stopSwap e | stopEnd e => rfl
  | scan v | dispatch v =>
    simp only [next]
    split
    · exact hset v _ rfl
    · split_ifs
      all_goals first | exact hset v _ rfl | rfl
  | idleSleep v =>
    simp only [next]
    split_ifs <;> exact hset v _ rfl
  | enter v | top v | tickle v | finish v | decr v | reset v | idleInc v | idleTest v | idleYield v | idleOut v
    | idleEnd v | idleTake v k b | idleDec v => exact hset v _ rfl

/-- **A worker's step brings it nearer to its next scan**, unless it is the scan, while no idle fiber leaves its
loop. -/
theorem distance_next (hidle : cfg.idle = .plain) {a : Act W E F C} (hg : guard cfg s a) (hs : s.stopping = false)
    {w : W} (hw : (s.worker w).over = false) (ha : runner a = some w) (hscan : a ≠ .scan w) :
    ((next cfg s a).worker w).live ∧ ((next cfg s a).worker w).distance < (s.worker w).distance := by
  simp only [Worker.over, Bool.or_eq_false_iff, beq_eq_false_iff_ne] at hw
  cases a with
  | scan v =>
    obtain rfl := Option.some_inj.1 ha
    exact absurd rfl hscan
  | enter v | top v | tickle v | decr v | reset v | idleDec v =>
    obtain rfl := Option.some_inj.1 ha
    have hpc : (s.worker v).pc = _ := hg
    simp [next, Worker.live, Worker.distance, hpc]
  | finish v =>
    obtain rfl := Option.some_inj.1 ha
    simp [next, Worker.live, Worker.distance, hg.1]
  | dispatch v =>
    obtain rfl := Option.some_inj.1 ha
    have hpc : (s.worker v).pc = .dispatch := hg
    simp only [next]
    split
    · simp [Worker.live, Worker.distance, hpc]
    · simp [Worker.live, Worker.distance, hpc, hw.2]
  | idleInc v =>
    obtain rfl := Option.some_inj.1 ha
    have hpc : (s.worker v).pc = .idleInc := hg
    simp only [next, State.goto, State.setWorker, Function.update_self, Worker.live, Worker.distance, hpc]
    refine ⟨by simp, ?_⟩
    cases (s.worker v).idlePos <;> decide
  | idleTest v =>
    obtain rfl := Option.some_inj.1 ha
    obtain ⟨-, hpc, hpos⟩ := hg
    simp [next, Worker.live, Worker.distance, hpc, hpos, hs]
  | idleSleep v =>
    obtain rfl := Option.some_inj.1 ha
    obtain ⟨-, hpc, hpos⟩ := hg
    simp [next, hidle, Worker.live, Worker.distance, hpc, hpos]
  | idleYield v =>
    obtain rfl := Option.some_inj.1 ha
    obtain ⟨-, hpc, hpos⟩ := hg
    simp [next, Worker.live, Worker.distance, hpc, hpos]
  | idleOut v | idleEnd v =>
    obtain rfl := Option.some_inj.1 ha
    simp [hg.2.2] at hw
  | idleTake v k ends =>
    rw [hg.1] at hidle
    cases hidle
  | _ => cases ha

/-- A worker's step with a task in hand: it is nearer to the end of the handling, or it was the last one. -/
theorem handling_next {a : Act W E F C} (hg : guard cfg s a) {w : W} (hok : (s.worker w).Ok) {e : Entry F C}
    (he : (s.worker w).task = some e) (ha : runner a = some w) :
    ((next cfg s a).worker w).task = some e ∧ ((next cfg s a).worker w).distance < (s.worker w).distance ∨
      e ∈ (next cfg s a).finished := by
  have hbusy : ∀ pc, (s.worker w).pc = pc → pc = .tickle ∨ pc = .dispatch ∨ pc = .exec ∨ pc = .decr ∨ pc = .reset := by
    rintro pc rfl
    unfold Worker.Ok at hok
    split at hok <;> simp_all
  cases a with
  | tickle v | decr v =>
    obtain rfl := Option.some_inj.1 ha
    have hpc : (s.worker v).pc = _ := hg
    simp [next, Worker.distance, hpc, he]
  | finish v =>
    obtain rfl := Option.some_inj.1 ha
    simp [next, Worker.distance, hg.1, he]
  | dispatch v =>
    obtain rfl := Option.some_inj.1 ha
    have hpc : (s.worker v).pc = .dispatch := hg
    simp [next, Worker.distance, hpc, he]
  | reset v =>
    obtain rfl := Option.some_inj.1 ha
    exact Or.inr (by simp [next, he])
  | enter v | top v | scan v | idleInc v | idleDec v =>
    obtain rfl := Option.some_inj.1 ha
    have hpc := hbusy _ hg
    simp at hpc
  | idleTest v | idleSleep v | idleYield v | idleOut v | idleEnd v | idleTake v k ends =>
    obtain rfl := Option.some_inj.1 ha
    have hpc := hbusy _ hg.2.1
    simp at hpc
  | _ => cases ha

/-! ## Fair executions -/

/-- **A worker in `run()` gets on**: the thread is scheduled again and again, and no task runs for ever. -/
def getsOn (w : W) : System.Demand (State W E F C) (Act W E F C) where
  ready s := s.aborted = none ∧ (s.worker w).live
  serves _ a := runner a = some w

/-- A worker has the task `e`. -/
def Held (e : Entry F C) (s : State W E F C) : Prop := ∃ v, (s.worker v).task = some e

/-- A task in the queue keeps every worker in its loop. -/
theorem queued_not_over [Fintype W] (hidle : cfg.idle = .plain) (hr : (system F C cfg).Reach (Orderly cfg) s)
    {e : Entry F C} (he : e ∈ s.mTasks) : s.stopping = false ∧ ∀ w, (s.worker w).over = false := by
  have hs : s.stopping = false := by
    by_contra hn
    have hq := (stopping_iff.1 (by simpa using hn)).2.1
    rw [hq] at he
    cases he
  refine ⟨hs, (over_reach hidle hr).resolve_left ?_⟩
  simp [hs]

/-- **A queued task is fetched**, if a worker that may take it is in `run()`. -/
theorem fetched_soon [Fintype W] (hidle : cfg.idle = .plain) {π : (system F C cfg).Path (Orderly cfg)} {w : W}
    (hfair : π.Just (getsOn w)) {e : Entry F C} (hmay : e.skipped (cfg.tid w) = false) :
    π.Leads (fun s => e ∈ s.mTasks ∧ (s.worker w).live) (fun s => Held e s ∨ s.aborted ≠ none) := by
  refine System.Path.leads_of_rank hfair (fun s => toLex (ahead e s, (s.worker w).distance)) ?_ ?_
  · rintro n ⟨-, hlive⟩
    by_cases hab : (π.state n).aborted = none
    · exact Or.inl ⟨hab, hlive⟩
    · exact Or.inr (Or.inr hab)
  · rintro s a hr ⟨hq, hlive⟩ ⟨-, hg⟩ -
    obtain ⟨hs, hover⟩ := queued_not_over hidle hr hq
    rcases queued_next cfg a hq with hq' | ⟨v, -, -, hv⟩
    swap
    · exact Or.inl (Or.inl ⟨v, hv⟩)
    have hahead := ahead_next hr hq hq'
    right
    simp only [Prod.Lex.toLex_lt_toLex]
    by_cases ha : runner a = some w
    · by_cases hscan : a = .scan w
      · subst hscan
        simp only [mayTake, hmay, Bool.not_false, Bool.toNat_true] at hahead
        refine ⟨⟨hq', ?_⟩, Or.inl (Or.inl (by show ahead e (next cfg s (.scan w)) < _; omega))⟩
        show ((next cfg s (.scan w)).worker w).live
        simp only [next]
        split
        · simp [Worker.live]
        · split_ifs
          · simp [Worker.live]
          · exact hlive
      · obtain ⟨hlive', hdist⟩ := distance_next hidle hg hs (hover w) ha hscan
        refine ⟨⟨hq', hlive'⟩, Or.inl ?_⟩
        rcases Nat.lt_or_eq_of_le (show ahead e (next cfg s a) ≤ ahead e s by omega) with hlt | heq
        · exact Or.inl hlt
        · exact Or.inr ⟨heq, hdist⟩
    · have hsame := runner_next hidle hg hlive.1 ha
      refine ⟨⟨hq', ?_⟩, ?_⟩
      · show ((next cfg s a).worker w).live
        rw [hsame]
        exact hlive
      · rcases Nat.lt_or_eq_of_le (show ahead e (next cfg s a) ≤ ahead e s by omega) with hlt | heq
        · exact Or.inl (Or.inl hlt)
        · refine Or.inr ⟨?_, ha⟩
          show toLex (ahead e (next cfg s a), ((next cfg s a).worker w).distance) = _
          rw [hsame, heq]

/-- **A fetched task is finished.** -/
theorem finished_soon (hidle : cfg.idle = .plain) {π : (system F C cfg).Path P} {w : W} (hfair : π.Just (getsOn w))
    (e : Entry F C) :
    π.Leads (fun s => (s.worker w).task = some e) (fun s => e ∈ s.finished ∨ s.aborted ≠ none) := by
  have hlive : ∀ s : State W E F C, (system F C cfg).Reach P s → (s.worker w).task = some e → (s.worker w).live := by
    intro s hr he
    have hok := ok_reach hr w
    constructor <;>
    · intro hpc
      simp [Worker.Ok, hpc, he] at hok
  refine System.Path.leads_of_rank hfair (fun s => (s.worker w).distance) ?_ ?_
  · intro n he
    by_cases hab : (π.state n).aborted = none
    · exact Or.inl ⟨hab, hlive _ (π.reach n) he⟩
    · exact Or.inr (Or.inr hab)
  · rintro s a hr he ⟨-, hg⟩ -
    by_cases ha : runner a = some w
    · rcases handling_next hg (ok_reach hr w) he ha with ⟨he', hdist⟩ | hfin
      · exact Or.inr ⟨he', Or.inl hdist⟩
      · exact Or.inl (Or.inl hfin)
    · have hsame : ((system F C cfg).next s a).worker w = s.worker w := runner_next hidle hg (hlive s hr he).1 ha
      right
      rw [hsame]
      exact ⟨he, Or.inr ⟨rfl, ha⟩⟩

/-- What has been accepted is queued, held or finished. -/
theorem whereabouts [Fintype W] (hr : (system F C cfg).Reach P s) {e : Entry F C} (he : e ∈ s.accepted) :
    e ∈ s.mTasks ∨ Held e s ∨ e ∈ s.finished := by
  have haccount := Ledger.account ((toLedger F C P cfg).reach hr)
  have he : e ∈ (s.accepted : Multiset (Entry F C)) := he
  rw [show (s.accepted : Multiset (Entry F C)) = _ from haccount] at he
  simp only [Multiset.mem_add, Multiset.mem_sum, Multiset.mem_coe] at he
  rcases he with (hq | ⟨w, -, hw⟩) | hf
  · exact Or.inl hq
  · exact Or.inr (Or.inl ⟨w, Option.mem_toList.1 hw⟩)
  · exact Or.inr (Or.inr hf)

theorem mem_accepted_next {a : Act W E F C} {e : Entry F C} (he : e ∈ s.accepted) : e ∈ (next cfg s a).accepted := by
  cases a with
  | scheduleLock t fc thr =>
    simp only [next, State.push]
    split_ifs
    · exact List.mem_append_left _ he
    · exact he
  | _ =>
    simp only [next]
    repeat' split
    all_goals exact he

/-- A thread that has been created stays so. -/
theorem born_next (hidle : cfg.idle = .plain) {a : Act W E F C} (hg : guard cfg s a) {w : W}
    (hw : (s.worker w).pc ≠ .unborn) : ((next cfg s a).worker w).pc ≠ .unborn := by
  by_cases ha : runner a = some w
  · cases a with
    | enter v | top v | tickle v | finish v | decr v | reset v | idleInc v | idleYield v | idleEnd v | idleTake v k b
      | idleDec v =>
      obtain rfl := Option.some_inj.1 ha
      simp [next]
    | idleTest v | idleOut v =>
      obtain rfl := Option.some_inj.1 ha
      simpa [next] using hw
    | scan v | dispatch v =>
      obtain rfl := Option.some_inj.1 ha
      simp only [next]
      split
      · simp
      · split_ifs
        all_goals first | exact hw | simp
    | idleSleep v =>
      obtain rfl := Option.some_inj.1 ha
      simp only [next]
      split_ifs
      · simp
      · simpa using hw
    | _ => cases ha
  · rw [runner_next hidle hg hw ha]
    exact hw

/-- One of the workers that may take `e` has been created. -/
def Taker (cfg : Config W E) (e : Entry F C) (s : State W E F C) : Prop :=
  ∃ w, e.skipped (cfg.tid w) = false ∧ (s.worker w).pc ≠ .unborn

theorem taker_next (hidle : cfg.idle = .plain) {a : Act W E F C} (hg : guard cfg s a) {e : Entry F C}
    (h : Taker cfg e s) : Taker cfg e (next cfg s a) := by
  obtain ⟨w, hw, hborn⟩ := h
  exact ⟨w, hw, born_next hidle hg hborn⟩

/-- A task is taken by a worker that may take it. -/
theorem taker_of_held (hr : (system F C cfg).Reach P s) {e : Entry F C} (h : Held e s) : Taker cfg e s := by
  obtain ⟨w, hw⟩ := h
  refine ⟨w, Entry.skipped_eq_false.2 (Ledger.pinned_held ((toLedger F C P cfg).reach hr) w e hw), fun hpc => ?_⟩
  have hok := ok_reach hr w
  simp [Worker.Ok, hpc, hw] at hok

theorem taker_of_finished (hidle : cfg.idle = .plain) (hr : (system F C cfg).Reach P s) {e : Entry F C}
    (h : e ∈ s.finished) : Taker cfg e s := by
  induction hr using System.Reach.induct with
  | start s hs =>
    rw [show s = initial W E F C from hs] at h
    cases h
  | step s a hr hen _ ih =>
    by_cases hold : e ∈ s.finished
    · exact taker_next hidle hen.2 (ih hold)
    · refine taker_next hidle hen.2 (taker_of_held hr ?_)
      change e ∈ (next cfg s a).finished at h
      cases a with
      | reset w =>
        simp only [next, List.mem_append, Option.mem_toList] at h
        exact ⟨w, h.resolve_left hold⟩
      | _ =>
        refine absurd ?_ hold
        simp only [next, State.push] at h
        repeat' split at h
        all_goals exact h

theorem finished_next {a : Act W E F C} {e : Entry F C} (he : e ∈ s.finished) : e ∈ (next cfg s a).finished := by
  cases a with
  | reset w => exact List.mem_append_left _ he
  | _ =>
    simp only [next, State.push]
    repeat' split
    all_goals exact he

/-- An accepted task is finished, once a worker that may take it has been created. -/
theorem executed_of_taker [Fintype W] (hidle : cfg.idle = .plain) {π : (system F C cfg).Path (Orderly cfg)}
    (hfair : ∀ w, π.Just (getsOn w)) (hab : ∀ n, (π.state n).aborted = none) {e : Entry F C} {w : W}
    (hw : e.skipped (cfg.tid w) = false) {n k : Nat} (he : e ∈ (π.state n).accepted)
    (hborn : ((π.state k).worker w).pc ≠ .unborn) : ∃ m ≥ n, e ∈ (π.state m).finished := by
  have hheld : ∀ j ≥ n, Held e (π.state j) → ∃ m ≥ n, e ∈ (π.state m).finished := by
    rintro j hj ⟨v, hv⟩
    obtain ⟨m, hm, hfin⟩ := finished_soon hidle (hfair v) e j hv
    exact ⟨m, hj.trans hm, hfin.resolve_right (not_not_intro (hab m))⟩
  -- from the later of the two moments on
  have hn := Nat.le_max_left n k
  have he' : e ∈ (π.state (max n k)).accepted :=
    π.stable (p := fun s => e ∈ s.accepted) (fun s a _ he _ _ => mem_accepted_next he) hn he
  have hborn' : ((π.state (max n k)).worker w).pc ≠ .unborn :=
    π.stable (p := fun s => (s.worker w).pc ≠ .unborn)
      (fun s a _ hb hen _ => born_next hidle hen.2 hb) (Nat.le_max_right n k) hborn
  rcases whereabouts (π.reach _) he' with hq | hh | hf
  · have hover := (queued_not_over hidle (π.reach _) hq).2 w
    have hlive : ((π.state (max n k)).worker w).live := by
      refine ⟨hborn', fun hdone => ?_⟩
      simp [Worker.over, hdone] at hover
    obtain ⟨j, hj, hh⟩ := fetched_soon hidle (hfair w) hw (max n k) ⟨hq, hlive⟩
    exact hheld j (hn.trans hj) (hh.resolve_right (not_not_intro (hab j)))
  · exact hheld _ hn hh
  · exact ⟨max n k, hn, hf⟩

/-- **Every accepted task is executed.** In a fair execution of the base class in which no assertion fails, a task that
has been accepted is finished sooner or later exactly if one of the workers that may take it is ever created. -/
theorem executed [Fintype W] (cfg : Config W E) (hidle : cfg.idle = .plain) (π : (system F C cfg).Path (Orderly cfg))
    (hfair : ∀ w, π.Just (getsOn w)) (hab : ∀ n, (π.state n).aborted = none) {n : Nat} {e : Entry F C}
    (he : e ∈ (π.state n).accepted) :
    (∃ m ≥ n, e ∈ (π.state m).finished) ↔
      ∃ w, e.skipped (cfg.tid w) = false ∧ ∃ k, ((π.state k).worker w).pc ≠ .unborn := by
  constructor
  · rintro ⟨m, -, hm⟩
    obtain ⟨w, hw, hborn⟩ := taker_of_finished hidle (π.reach m) hm
    exact ⟨w, hw, m, hborn⟩
  · rintro ⟨w, hw, k, hborn⟩
    exact executed_of_taker hidle hfair hab hw he hborn

/-- A failed assertion is the end: a run that ends without one never had any. -/
theorem alive_of_end {s t : State W E F C} {as : List (Act W E F C)} (h₀ : (system F C cfg).init s)
    (h : (system F C cfg).Steps P s as t) (ht : t.aborted = none) (n : Nat) : ((h.path h₀).state n).aborted = none := by
  by_contra hab
  refine (h.path h₀).stable (p := fun s => s.aborted ≠ none) ?_ (Nat.le_max_left n as.length) hab ?_
  · intro s a _ hs hen _
    exact absurd hen.1 hs
  · rw [h.path_end h₀ (Nat.le_max_right n as.length)]
    exact ht

theorem executed_duo : ∃ π : (system Nat Nat (duo .plain)).Path (Orderly (duo .plain)),
    ∃ e ∈ (π.state 2).accepted, ∃ m ≥ 2, e ∈ (π.state m).finished := by
  have h : (System.exec (system Nat Nat (duo .plain)) (Orderly (duo .plain)) (initial _ _ _ _)
      (drainRun 0 1 0 1)).isSome = true := by
    decide
  have hend : ∀ w, (((System.exec (system Nat Nat (duo .plain)) (Orderly (duo .plain)) (initial _ _ _ _)
      (drainRun 0 1 0 1)).get h).worker w).pc = .done := by
    decide +revert
  refine ⟨(System.steps_exec h).path rfl, ⟨0, .make (.callback (some 3)) (-1)⟩, by decide +revert, ?_⟩
  refine (executed (duo .plain) rfl _ ?_ ?_ (by decide +revert)).2 ⟨0, rfl, 1, by decide +revert⟩
  · exact fun w => System.Steps.just_of_end rfl _ fun hready => hready.2.2 (hend w)
  · exact alive_of_end rfl _ rfl

end Sylar.Sched
