import Sylar.Scheduler.Iterator

/-!
# The section of a fetch

What `run()` does under `m_mutex`, one pass of its loop after the other: through the iterator, with the assertion, the
erasure, `m_activeThreadCnt` and `tickle_me`. The iterator is the `begin()` of the vector that the section finds.

- `pass`, `fetch`: the section; `loop_mono`: it has one outcome, however many passes it is granted;
- `loop_eq`: the invariant of the loop, in which the entries passed are those that `scan` has passed;
- `takes_first`: the section takes the first entry that it may take, and says whether it leaves one behind;
- `fetch_next`: it is the scheduler's step.
-/

namespace Sylar.Sched

open StdVector

variable {F C : Type}

/-- What can go wrong in the section. -/
inductive Fault where
  | staleIterator
  | nonEmptyTask
deriving DecidableEq, Repr

/-- The members that the section uses, and the locals `it`, `task` and `tickle_me` of `run()`. -/
structure Section (F C : Type) where
  mTasks : StdVector (Entry F C)
  mActiveThreadCnt : Nat
  it : Iter
  task : Option (Entry F C)
  tickleMe : Bool

/-- How a pass of the loop ends. -/
inductive Passed (F C : Type) where
  | again (s : Section F C)
  | left (s : Section F C)
  | fault (f : Fault)

/-- **One pass of the loop**: the test of `it`, and its body. -/
def pass (tid : Int) (s : Section F C) : Passed F C :=
  if s.mTasks.isEnd s.it then .left s
  else
    match s.mTasks.deref s.it with
    | none => .fault .staleIterator
    | some e =>
      if e.skipped tid then .again { s with it := s.mTasks.succ s.it, tickleMe := true }
      else if e.task.nonEmpty then
        match eraseAt s.mTasks s.it with
        | none => .fault .staleIterator
        | some v => .left { s with mTasks := v, mActiveThreadCnt := s.mActiveThreadCnt + 1, task := some e }
      else .fault .nonEmptyTask

/-- The loop, for so many passes at most. -/
def loop (tid : Int) : Nat → Section F C → Option (Except Fault (Section F C))
  | 0, _ => none
  | fuel + 1, s =>
    match pass tid s with
    | .again s => loop tid fuel s
    | .left s => some (.ok s)
    | .fault f => some (.error f)

/-- `tickle_me = tickle_me || (it != m_tasks.end())`. -/
def Section.close (s : Section F C) : Section F C := { s with tickleMe := s.tickleMe || !s.mTasks.isEnd s.it }

/-- **The section**, with `task` reset, on the vector for which `it` is `begin()`. -/
def fetch (tid : Int) (fuel : Nat) (v : StdVector (Entry F C)) (cnt : Nat) : Option (Except Fault (Section F C)) :=
  (loop tid fuel ⟨v, cnt, v.begin, none, false⟩).map (Except.map Section.close)

variable {tid : Int} {s : Section F C}

/-- A loop that has ended ends the same way with more passes. -/
theorem loop_mono : ∀ {fuel fuel' : Nat} {s : Section F C} {r : Except Fault (Section F C)}, fuel ≤ fuel' →
    loop tid fuel s = some r → loop tid fuel' s = some r
  | 0, _, _, _, _, h => by cases h
  | fuel + 1, 0, _, _, hle, _ => by omega
  | fuel + 1, fuel' + 1, s, r, hle, h => by
    unfold loop at h ⊢
    cases hp : pass tid s with
    | again s' =>
      rw [hp] at h
      exact loop_mono (by omega) h
    | left s' | fault f =>
      rw [hp] at h
      exact h

/-- What the section ends with, in terms of the scan: `v` and `cnt` are what `m_tasks` and the counter were. -/
structure Agrees (v : StdVector (Entry F C)) (cnt : Nat) (r : Scanned F C) (s : Section F C) : Prop where
  task : s.task = r.task
  rest : s.mTasks.elems = r.rest
  tickleMe : s.close.tickleMe = r.tickleMe
  active : s.mActiveThreadCnt = cnt + r.task.toList.length
  kept : r.task = none → s.mTasks = v

/-- **The loop**, from where it has passed the entries `p` and has `l` before it. It ends after the passes over `l` and
a test at the end. -/
theorem loop_eq (tid : Int) {l : List (Entry F C)} : ∀ {p : List (Entry F C)} {s : Section F C},
    s.mTasks.elems = p ++ l → s.it.pos = p.length → s.mTasks.Valid s.it → s.task = none →
    (∀ e ∈ l, e.task.nonEmpty = true) → ∃ s', loop tid (l.length + 1) s = some (.ok s') ∧
      Agrees s.mTasks s.mActiveThreadCnt (scanFrom tid p s.tickleMe l) s' := by
  induction l with
  | nil =>
    intro p s hv hpos hval htask _
    have hend : s.mTasks.isEnd s.it = true := by simp [isEnd, hval.1, hv, hpos]
    refine ⟨s, by simp [loop, pass, hend], htask, ?_, ?_, rfl, fun _ => rfl⟩
    · simp [scanFrom, hv]
    · simp [scanFrom, Section.close, hend]
  | cons e l ih =>
    intro p s hv hpos hval htask hne
    have hend : s.mTasks.isEnd s.it = false := by simp [isEnd, hv, hpos]
    have hget : s.mTasks.deref s.it = some e := by
      rw [deref, if_pos hval, hv, hpos]
      simp
    rw [scanFrom]
    cases hskip : e.skipped tid with
    | true =>
      have hpass : pass tid s = .again { s with it := s.mTasks.succ s.it, tickleMe := true } := by
        simp [pass, hend, hget, hskip]
      obtain ⟨s', hloop, hagrees⟩ := ih (p := p ++ [e]) (s := { s with it := s.mTasks.succ s.it, tickleMe := true })
        (by simp [hv]) (by simp [StdVector.succ, hpos]) hval.succ htask
        fun x hx => hne x (List.mem_cons_of_mem _ hx)
      refine ⟨s', ?_, hagrees⟩
      simp only [List.length_cons, loop, hpass]
      exact hloop
    | false =>
      obtain ⟨helems, hlast⟩ := isEnd_erase hv hpos hval.1
      have hpass : pass tid s = .left { s with
          mTasks := s.mTasks.erase s.it.pos, mActiveThreadCnt := s.mActiveThreadCnt + 1, task := some e } := by
        simp [pass, hend, hget, hskip, hne e (List.mem_cons_self ..), eraseAt, hval]
      rw [if_neg Bool.false_ne_true]
      have hloop : loop tid ((e :: l).length + 1) s = some (.ok { s with
          mTasks := s.mTasks.erase s.it.pos, mActiveThreadCnt := s.mActiveThreadCnt + 1, task := some e }) := by
        simp only [loop, hpass]
      refine ⟨_, hloop, rfl, helems, ?_, rfl, by simp⟩
      simp [Section.close, hlast]

/-- The section on a vector of tasks that are not empty. -/
theorem fetch_eq (tid : Int) (v : StdVector (Entry F C)) (cnt : Nat) (hne : ∀ e ∈ v.elems, e.task.nonEmpty = true) :
    ∃ s, (∀ fuel, v.elems.length < fuel → fetch tid fuel v cnt = some (.ok s.close)) ∧
      Agrees v cnt (scan tid v.elems) s := by
  obtain ⟨s, hloop, hagrees⟩ := loop_eq tid (l := v.elems) (p := []) (s := ⟨v, cnt, v.begin, none, false⟩)
    rfl rfl v.begin_valid rfl hne
  refine ⟨s, fun fuel hfuel => ?_, hagrees⟩
  unfold fetch
  rw [loop_mono hfuel hloop]
  rfl

/-- **One fetch takes the right task.** On every queue of tasks that are not empty the section ends, with no more passes
than entries and one; if some entry is for every thread or for this one, it takes the first of these, erases it and
counts the worker, and else it changes nothing; and `tickle_me` says whether the queue left behind has an entry. -/
theorem takes_first (tid : Int) (v : StdVector (Entry F C)) (cnt : Nat) (hne : ∀ e ∈ v.elems, e.task.nonEmpty = true) :
    ∃ s, (∀ fuel, v.elems.length < fuel → fetch tid fuel v cnt = some (.ok s)) ∧
      ((∃ e ∈ v.elems, e.task.thread = -1 ∨ e.task.thread = tid) →
        ∃ l₁ e l₂, v.elems = l₁ ++ e :: l₂ ∧ (∀ x ∈ l₁, ¬ (x.task.thread = -1 ∨ x.task.thread = tid)) ∧
          (e.task.thread = -1 ∨ e.task.thread = tid) ∧ s.task = some e ∧ s.mTasks.elems = l₁ ++ l₂ ∧
          s.mActiveThreadCnt = cnt + 1) ∧
      ((∀ e ∈ v.elems, ¬ (e.task.thread = -1 ∨ e.task.thread = tid)) →
        s.task = none ∧ s.mTasks = v ∧ s.mActiveThreadCnt = cnt) ∧
      (s.tickleMe = true ↔ s.mTasks.elems ≠ []) := by
  obtain ⟨s, hfetch, hagrees⟩ := fetch_eq tid v cnt hne
  have hskips : ∀ x : Entry F C, x.skipped tid = true ↔ ¬ (x.task.thread = -1 ∨ x.task.thread = tid) := by
    intro x
    rw [← Entry.skipped_eq_false, Bool.not_eq_false]
  refine ⟨s.close, hfetch, ?_, ?_, ?_⟩
  · rintro ⟨x, hx, htakes⟩
    cases htask : (scan tid v.elems).task with
    | none => exact absurd htakes ((hskips x).1 ((scan_none htask).2 x hx))
    | some e =>
      obtain ⟨l₁, l₂, hl, hs, he, hr⟩ := scan_some htask
      refine ⟨l₁, e, l₂, hl, fun y hy => (hskips y).1 (hs y hy), Entry.skipped_eq_false.1 he,
        hagrees.task.trans htask, hagrees.rest.trans hr, ?_⟩
      have hactive := hagrees.active
      rw [htask] at hactive
      exact hactive
  · intro hnone
    have htask : (scan tid v.elems).task = none := by
      cases htask : (scan tid v.elems).task with
      | none => rfl
      | some e =>
        obtain ⟨l₁, l₂, hl, -, he, -⟩ := scan_some htask
        exact absurd (Entry.skipped_eq_false.1 he) (hnone e (by simp [hl]))
    have hactive := hagrees.active
    rw [htask] at hactive
    exact ⟨hagrees.task.trans htask, hagrees.kept htask, hactive⟩
  · rw [hagrees.tickleMe, scan_tickleMe, show s.close.mTasks.elems = _ from hagrees.rest]
    simp

/-! ## The scheduler's step -/

variable {W E : Type} [DecidableEq W] [DecidableEq E] {cfg : Config W E}

/-- **The section is the step `scan`** of the scheduler. -/
theorem fetch_next {s : State W E F C} {w : W} {v : StdVector (Entry F C)} (hv : v.elems = s.mTasks)
    (hne : ∀ e ∈ s.mTasks, e.task.nonEmpty = true) :
    ∃ r, (∀ fuel, s.mTasks.length < fuel → fetch (cfg.tid w) fuel v s.mActiveThreadCnt = some (.ok r)) ∧
      next cfg s (.scan w) =
        { s.setWorker w { s.worker w with pc := .tickle, task := r.task, tickleMe := r.tickleMe } with
          mTasks := r.mTasks.elems
          mActiveThreadCnt := r.mActiveThreadCnt
          fetched := s.fetched ++ r.task.toList } := by
  rw [← hv] at hne
  obtain ⟨r, hfetch, hagrees⟩ := fetch_eq (cfg.tid w) v s.mActiveThreadCnt hne
  rw [hv] at hfetch hagrees
  refine ⟨r.close, hfetch, ?_⟩
  have htask : r.close.task = _ := hagrees.task
  have hrest : r.close.mTasks.elems = _ := hagrees.rest
  have hactive : r.close.mActiveThreadCnt = _ := hagrees.active
  rw [htask, hrest, hactive, hagrees.tickleMe]
  simp only [next]
  cases he : (scan (cfg.tid w) s.mTasks).task with
  | none =>
    rw [(scan_none he).1]
    simp
  | some e =>
    obtain ⟨l₁, l₂, hl, -, -, -⟩ := scan_some he
    have hfull : e.task.nonEmpty = true := hne e (by rw [hv, hl]; simp)
    simp [hfull]

/-- A task for another thread in front of one for this thread. -/
def behindPinned : StdVector (Entry Nat Nat) :=
  (StdVector.empty _).edits doubling
    [.push ⟨0, .make (.callback (some 3)) 11⟩, .push ⟨1, .make (.callback (some 4)) 10⟩]

theorem takes_first_pinned : ∃ s, fetch 10 3 behindPinned 5 = some (.ok s) ∧ s.mActiveThreadCnt = 6 ∧
    (s.tickleMe = true ↔ s.mTasks.elems ≠ []) := by
  obtain ⟨s, hfetch, htakes, -, htickle⟩ := takes_first 10 behindPinned 5 (by decide)
  obtain ⟨-, -, -, -, -, -, -, -, hactive⟩ := htakes ⟨⟨1, .make (.callback (some 4)) 10⟩, by decide, Or.inr rfl⟩
  exact ⟨s, hfetch 3 (by decide), hactive, htickle⟩

end Sylar.Sched
