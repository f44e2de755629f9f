import Sylar.Lib.StdVector
import Sylar.Scheduler.Tasks

/-!
# The iterator of the scan

`run()` evaluates `m_tasks.begin()` before it locks `m_mutex`. Here the scan is the loop over the vector itself, through
the iterator (`scanLoop`, which ends in `none` where a stale iterator is dereferenced or passed to `erase`), and the
window between `begin()` and the lock is any list of sections of other threads (`QueueOp`).

- `scanLoop_eq`, `scanLoop_eq_scan`: where no use of the iterator is stale, the loop does what `scan` says;
- `spares_begin`, `scanLoop_isSome`: exactly which windows make a use stale; `scanLoop_stale`: the first `scheduleLock`
  does;
- `window_steps`, `scan_step_iff`: the windows are those of the scheduler's runs.
-/

namespace Sylar.Sched

open Trans StdVector

variable {F C : Type}

/-! ## The loop -/

/-- `m_tasks.erase(it)`. -/
def eraseAt (v : StdVector (Entry F C)) (it : Iter) : Option (StdVector (Entry F C)) :=
  if v.Valid it then some (v.erase it.pos) else none

theorem pos_lt_of_deref {v : StdVector (Entry F C)} {it : Iter} {e : Entry F C} (h : v.deref it = some e) :
    it.pos < v.elems.length := by
  unfold deref at h
  split at h
  · exact (List.getElem?_eq_some_iff.1 h).1
  · cases h

/-- The loop of `run()` over `m_tasks`, under the lock. -/
def scanLoop (tid : Int) (v : StdVector (Entry F C)) (it : Iter) (tickleMe : Bool) : Option (Scanned F C) :=
  if v.isEnd it then some ⟨none, v.elems, tickleMe⟩
  else
    match _h : v.deref it with
    | none => none
    | some e =>
      if e.skipped tid then scanLoop tid v (v.succ it) true
      else (eraseAt v it).map fun v' => ⟨some e, v'.elems, tickleMe || !v'.isEnd it⟩
termination_by v.elems.length - it.pos
decreasing_by
  have hlt := pos_lt_of_deref ‹_›
  simp only [StdVector.succ]
  omega

/-- **A valid iterator**: the loop is the scan. -/
theorem scanLoop_eq (tid : Int) {v : StdVector (Entry F C)} : ∀ {l p : List (Entry F C)} {it : Iter} {b : Bool},
    v.elems = p ++ l → it.pos = p.length → v.Valid it →
      scanLoop tid v it b = some (scanFrom tid p b l)
  | [], p, it, b, hv, hpos, hval => by
    have hend : v.isEnd it = true := by simp [isEnd, hval.1, hv, hpos]
    rw [scanLoop, if_pos hend]
    simp [scanFrom, hv]
  | e :: l, p, it, b, hv, hpos, hval => by
    have hend : v.isEnd it = false := by simp [isEnd, hv, hpos]
    have hget : v.deref it = some e := by rw [deref, if_pos hval, hv, hpos]; simp
    rw [scanLoop, if_neg (by simp [hend]), scanFrom]
    split
    · rename_i h
      rw [h] at hget
      cases hget
    · rename_i x h
      rw [h] at hget
      cases hget
      split_ifs
      · exact scanLoop_eq tid (by simp [hv]) (by simp [StdVector.succ, hpos]) hval.succ
      · obtain ⟨herase, hlast⟩ := isEnd_erase hv hpos hval.1
        rw [eraseAt, if_pos hval, Option.map_some, herase, hlast]

/-- A stale iterator is dereferenced, unless its position looks like the end. -/
theorem scanLoop_of_not_valid (tid : Int) {v : StdVector (Entry F C)} {it : Iter} {b : Bool} (h : ¬v.Valid it) :
    (scanLoop tid v it b).isSome = true ↔ v.isEnd it = true := by
  rw [scanLoop]
  have hget : v.deref it = none := by rw [deref, if_neg h]
  split_ifs with hend
  · simp [hend]
  · split
    · simp [hend]
    · rename_i e he
      rw [hget] at he
      cases he

/-! ## The window -/

/-- What other threads do to `m_tasks` under the lock: the section of `scheduleLock`, and the scan of another worker. -/
inductive QueueOp (F C : Type) where
  | accept (e : Entry F C)
  | fetch (tid : Int)

/-- The edits of a section. -/
def QueueOp.edits (q : List (Entry F C)) : QueueOp F C → List (Edit (Entry F C))
  | .accept e => if e.task.nonEmpty then [.push e] else []
  | .fetch tid => ((q.findIdx? fun e => !e.skipped tid).map Edit.erase).toList

/-- The edits of a list of sections. -/
def window (G : Growth) : StdVector (Entry F C) → List (QueueOp F C) → List (Edit (Entry F C))
  | _, [] => []
  | v, op :: ops => op.edits v.elems ++ window G (v.edits G (op.edits v.elems)) ops

/-- A `scheduleLock` of the window finds the vector full. -/
def reallocated (G : Growth) (v : StdVector (Entry F C)) (ops : List (QueueOp F C)) : Bool :=
  happens G reallocates v (window G v ops)

/-- A worker takes the first entry in the window. -/
def headTaken (G : Growth) (v : StdVector (Entry F C)) (ops : List (QueueOp F C)) : Bool :=
  happens G (erasesUpTo 0) v (window G v ops)

variable {G : Growth} {tid : Int}

/-- The loop from `begin()` comes to an end where the iterator is valid, or is the end. -/
theorem isSome_begin (tid : Int) (u v : StdVector (Entry F C)) :
    (scanLoop tid u v.begin false).isSome = true ↔ u.Valid v.begin ∨ u.isEnd v.begin = true := by
  by_cases h : u.Valid v.begin
  · rw [scanLoop_eq tid (p := []) rfl rfl h]
    simp [h]
  · rw [scanLoop_of_not_valid tid h]
    simp [h]

/-- Which windows spare the iterator, or leave it at the end. -/
theorem spares_begin (G : Growth) (v : StdVector (Entry F C)) (ops : List (QueueOp F C)) :
    ((v.edits G (window G v ops)).Valid v.begin ∨ (v.edits G (window G v ops)).isEnd v.begin = true) ↔
      reallocated G v ops = false ∧ (headTaken G v ops = false ∨ (v.edits G (window G v ops)).elems = []) := by
  have hvalid := valid_edits (G := G) (l := window G v ops) v.begin_issued
  have hbuf := buffer_edits (G := G) (l := window G v ops) (v := v)
  simp only [isEnd, Bool.and_eq_true, beq_iff_eq]
  constructor
  · rintro (h | ⟨hb, hlen⟩)
    · obtain ⟨-, hr, hh⟩ := hvalid.1 h
      exact ⟨hr, Or.inl hh⟩
    · exact ⟨hbuf.1 hb.symm, Or.inr (List.length_eq_zero_iff.1 hlen.symm)⟩
  · rintro ⟨hr, hh | he⟩
    · exact Or.inl (hvalid.2 ⟨v.begin_valid, hr, hh⟩)
    · exact Or.inr ⟨(hbuf.2 hr).symm, by rw [he]; rfl⟩

/-- **The scan's use of its iterator.** `begin()` is evaluated on `v`, and the lock is taken after the sections `ops` of
other threads. No stale iterator is dereferenced or erased exactly if no push reallocated in between, and no worker took
the first entry unless the queue is left empty. -/
theorem scanLoop_isSome (G : Growth) (tid : Int) (v : StdVector (Entry F C)) (ops : List (QueueOp F C)) :
    (scanLoop tid (v.edits G (window G v ops)) v.begin false).isSome = true ↔
      reallocated G v ops = false ∧ (headTaken G v ops = false ∨ (v.edits G (window G v ops)).elems = []) := by
  rw [isSome_begin]
  exact spares_begin G v ops

/-- Where no use is stale, the outcome is that of `scan`. -/
theorem scanLoop_eq_scan {v : StdVector (Entry F C)} {ops : List (QueueOp F C)} {r : Scanned F C}
    (h : scanLoop tid (v.edits G (window G v ops)) v.begin false = some r) :
    r = scan tid (v.edits G (window G v ops)).elems := by
  by_cases hval : (v.edits G (window G v ops)).Valid v.begin
  · rw [scanLoop_eq tid (p := []) rfl rfl hval] at h
    cases h
    rfl
  · have hend := (scanLoop_of_not_valid tid hval).1 (by rw [h]; rfl)
    rw [scanLoop, if_pos hend] at h
    cases h
    simp only [isEnd, Bool.and_eq_true, beq_iff_eq] at hend
    rw [List.length_eq_zero_iff.1 hend.2.symm]
    rfl

/-- A full vector doubles its capacity. -/
def doubling : Growth := ⟨fun n => max 1 (2 * n), fun n => by omega⟩

/-- The first `scheduleLock` of a program, between `begin()` and the lock of a waiting worker: the vector gets its
first buffer, and the worker dereferences the null iterator. -/
theorem scanLoop_stale :
    let v : StdVector (Entry Nat Nat) := StdVector.empty _
    let ops : List (QueueOp Nat Nat) := [.accept ⟨0, .make (.callback (some 3)) (-1)⟩]
    scanLoop 10 (v.edits doubling (window doubling v ops)) v.begin false = none := by
  intro v ops
  rw [scanLoop]
  rfl

/-! ## Windows of the scheduler's runs -/

variable {W E : Type} [DecidableEq W] [DecidableEq E] {cfg : Config W E}

/-- The section on `m_tasks` that a step of the scheduler is, if any. -/
def queueOps (cfg : Config W E) (s : State W E F C) : Act W E F C → List (QueueOp F C)
  | .scheduleLock _ fc thr => [.accept ⟨s.accepted.length, .make fc thr⟩]
  | .scan w =>
    match (scan (cfg.tid w) s.mTasks).task with
    | none => []
    | some e => if e.task.nonEmpty then [.fetch (cfg.tid w)] else []
  | _ => []

/-- The sections of a run. -/
def runOps (cfg : Config W E) : State W E F C → List (Act W E F C) → List (QueueOp F C)
  | _, [] => []
  | s, a :: as => queueOps cfg s a ++ runOps cfg (next cfg s a) as

theorem window_append : ∀ {ops ops' : List (QueueOp F C)} {v : StdVector (Entry F C)},
    window G v (ops ++ ops') = window G v ops ++ window G (v.edits G (window G v ops)) ops'
  | [], _, _ => rfl
  | op :: ops, ops', v => by
    rw [List.cons_append, window, window, window_append, edits_append, List.append_assoc]

/-- A fetch erases the entry that the scan takes. -/
theorem fetch_edits {q : List (Entry F C)} {e : Entry F C} (h : (scan tid q).task = some e) :
    ∃ i, (QueueOp.fetch tid).edits q = [.erase i] ∧ q.eraseIdx i = (scan tid q).rest := by
  obtain ⟨l₁, l₂, hq, hs, he, hr⟩ := scan_some h
  refine ⟨l₁.length, ?_, ?_⟩
  · have hfind : q.findIdx? (fun e => !e.skipped tid) = some l₁.length := by
      rw [hq, List.findIdx?_append, List.findIdx?_eq_none_iff.2 (fun x hx => by simp [hs x hx])]
      simp [List.findIdx?_cons, he]
    simp [QueueOp.edits, hfind]
  · rw [hr, hq, List.eraseIdx_append_of_length_le (Nat.le_refl _)]
    simp

theorem window_next {s : State W E F C} {a : Act W E F C} {v : StdVector (Entry F C)} (hv : v.elems = s.mTasks) :
    (v.edits G (window G v (queueOps cfg s a))).elems = (next cfg s a).mTasks := by
  cases a with
  | scheduleLock t fc thr =>
    simp only [queueOps, window, QueueOp.edits, next, State.push, List.append_nil]
    split_ifs
    · simp [edits, edit, hv]
    · exact hv
  | scan w =>
    simp only [queueOps, next]
    cases he : (scan (cfg.tid w) s.mTasks).task with
    | none => exact hv
    | some e =>
      obtain ⟨i, hi, hrest⟩ := fetch_edits he
      simp only
      split_ifs
      · simp only [window, hv, hi, List.append_nil]
        simp [edits, edit, hv, hrest]
      · exact hv
  | _ =>
    simp only [queueOps, next]
    repeat' split
    all_goals exact hv

/-- The vector follows `m_tasks` through a run. -/
theorem window_steps {P : State W E F C → Act W E F C → Prop} {s t : State W E F C} {as : List (Act W E F C)}
    (h : (system F C cfg).Steps P s as t) : ∀ {v : StdVector (Entry F C)}, v.elems = s.mTasks →
      (v.edits G (window G v (runOps cfg s as))).elems = t.mTasks := by
  induction h with
  | nil s => exact fun hv => hv
  | cons _ _ _ ih =>
    intro v hv
    rw [runOps, window_append, edits_append]
    exact ih (window_next hv)

/-- The scan of a worker that evaluated `begin()` in `s` and takes the lock in `t` is the machine's step exactly under
the condition of `spares_begin`. -/
theorem scan_step_iff (G : Growth) {P : State W E F C → Act W E F C → Prop} {s t : State W E F C}
    {as : List (Act W E F C)} (h : (system F C cfg).Steps P s as t) (w : W) {v : StdVector (Entry F C)}
    (hv : v.elems = s.mTasks) :
    scanLoop (cfg.tid w) (v.edits G (window G v (runOps cfg s as))) v.begin false = some (scan (cfg.tid w) t.mTasks) ↔
      reallocated G v (runOps cfg s as) = false ∧ (headTaken G v (runOps cfg s as) = false ∨ t.mTasks = []) := by
  have ht := window_steps (G := G) h hv
  have hiff := (isSome_begin (cfg.tid w) _ v).trans (spares_begin G v (runOps cfg s as))
  rw [ht] at hiff
  rw [← hiff]
  constructor
  · intro hs
    rw [hs]
    rfl
  · intro hs
    obtain ⟨r, hr⟩ := Option.isSome_iff_exists.1 hs
    rw [hr, scanLoop_eq_scan hr, ht]

end Sylar.Sched
