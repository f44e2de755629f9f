import Mathlib.Data.List.Basic

/-!
# Tasks and the scan of the queue

`ScheduleTask` (`scheduler.h`), its constructors, and one fetch of `Scheduler::run`: the loop over `m_tasks` that skips
the tasks pinned to other threads, takes the first other one and erases it (`scan`).

- `scan_none`, `scan_some`: a scan that takes nothing leaves the queue alone and has skipped all of it; a scan that
  takes a task takes the first one that is not pinned elsewhere and keeps the order of the others;
- `scan_tickleMe`: `tickle_me` says whether the scan leaves a task behind.
-/

namespace Sylar

/-- What `scheduleLock` is called with: a fiber or a callback, by value or by pointer. -/
inductive FiberOrCallback (F C : Type) where
  | fiber (f : Option F)
  | fiberPtr (f : Option F)
  | callback (c : Option C)
  | callbackPtr (c : Option C)

/-- `Scheduler::ScheduleTask`. -/
structure ScheduleTask (F C : Type) where
  thread : Int
  callback : Option C
  fiber : Option F
deriving DecidableEq, Repr

namespace ScheduleTask

variable {F C : Type}

/-- The constructors. Those that take a pointer swap, so the task gets what the pointer pointed to. -/
def make : FiberOrCallback F C → Int → ScheduleTask F C
  | .fiber f, thr => ⟨thr, none, f⟩
  | .fiberPtr f, thr => ⟨thr, none, f⟩
  | .callback c, thr => ⟨thr, c, none⟩
  | .callbackPtr c, thr => ⟨thr, c, none⟩

/-- `task.fiber || task.callback`. -/
def nonEmpty (t : ScheduleTask F C) : Bool := t.fiber.isSome || t.callback.isSome

end ScheduleTask

/-- An entry of `m_tasks`. The number says how many tasks were accepted before it; no code reads it. -/
structure Entry (F C : Type) where
  seq : Nat
  task : ScheduleTask F C
deriving DecidableEq, Repr

namespace Entry

variable {F C : Type}

/-- `it->thread != -1 && it->thread != thread_id`: pinned to another thread. -/
def skipped (tid : Int) (e : Entry F C) : Bool := e.task.thread != -1 && e.task.thread != tid

/-- A worker that may take `b` may take `a`. -/
def Covers (a b : Entry F C) : Prop := a.task.thread = -1 ∨ a.task.thread = b.task.thread

theorem skipped_eq_false {e : Entry F C} {tid : Int} :
    e.skipped tid = false ↔ e.task.thread = -1 ∨ e.task.thread = tid := by
  simp only [skipped, Bool.and_eq_false_iff, bne_eq_false_iff_eq]

theorem not_skipped_of_covers {a b : Entry F C} (h : a.Covers b) {tid : Int} (hb : b.skipped tid = false) :
    a.skipped tid = false := by
  rw [skipped_eq_false] at hb ⊢
  rcases h with h | h
  · exact Or.inl h
  · rw [h]; exact hb

end Entry

/-! ## The scan -/

section Scan

variable {F C : Type}

/-- The end of a scan: the task taken, the queue left, and `tickle_me`. -/
structure Scanned (F C : Type) where
  task : Option (Entry F C)
  rest : List (Entry F C)
  tickleMe : Bool

/-- The loop, with the entries already passed and `tickle_me` so far; the list is what `it` has before it. -/
def scanFrom (tid : Int) (passed : List (Entry F C)) (tickleMe : Bool) : List (Entry F C) → Scanned F C
  | [] => ⟨none, passed, tickleMe⟩
  | e :: l =>
    if e.skipped tid then scanFrom tid (passed ++ [e]) true l
    -- after `erase(it)` the position of `it` is that of the first entry of `l`
    else ⟨some e, passed ++ l, tickleMe || !l.isEmpty⟩

/-- **One fetch** by the thread `tid`. -/
def scan (tid : Int) (l : List (Entry F C)) : Scanned F C := scanFrom tid [] false l

variable {tid : Int} {l : List (Entry F C)} {e : Entry F C}

theorem scanFrom_none : ∀ {l passed : List (Entry F C)} {b : Bool}, (scanFrom tid passed b l).task = none →
    (scanFrom tid passed b l).rest = passed ++ l ∧ ∀ x ∈ l, x.skipped tid = true
  | [], passed, b, _ => by simp [scanFrom]
  | e :: l, passed, b, h => by
    rw [scanFrom] at h ⊢
    split at h
    · rename_i he
      rw [if_pos he]
      obtain ⟨hr, hs⟩ := scanFrom_none h
      refine ⟨by simp [hr], fun x hx => ?_⟩
      rcases List.mem_cons.1 hx with rfl | hx
      · exact he
      · exact hs x hx
    · cases h

theorem scanFrom_some : ∀ {l passed : List (Entry F C)} {b : Bool}, (scanFrom tid passed b l).task = some e →
    ∃ l₁ l₂, l = l₁ ++ e :: l₂ ∧ (∀ x ∈ l₁, x.skipped tid = true) ∧ e.skipped tid = false ∧
      (scanFrom tid passed b l).rest = passed ++ l₁ ++ l₂
  | [], _, _, h => by cases h
  | x :: l, passed, b, h => by
    rw [scanFrom] at h ⊢
    split at h
    · rename_i hx
      rw [if_pos hx]
      obtain ⟨l₁, l₂, rfl, hs, he, hr⟩ := scanFrom_some h
      refine ⟨x :: l₁, l₂, rfl, fun y hy => ?_, he, by simp [hr]⟩
      rcases List.mem_cons.1 hy with rfl | hy
      · exact hx
      · exact hs y hy
    · rename_i hx
      rw [if_neg hx]
      cases h
      exact ⟨[], l, rfl, by simp, by simpa using hx, by simp⟩

/-- A scan that takes nothing. -/
theorem scan_none (h : (scan tid l).task = none) : (scan tid l).rest = l ∧ ∀ x ∈ l, x.skipped tid = true :=
  scanFrom_none h

/-- **A scan that takes `e`**: it is the first entry that is not pinned elsewhere, and only it is erased. -/
theorem scan_some (h : (scan tid l).task = some e) :
    ∃ l₁ l₂, l = l₁ ++ e :: l₂ ∧ (∀ x ∈ l₁, x.skipped tid = true) ∧ e.skipped tid = false ∧
      (scan tid l).rest = l₁ ++ l₂ := by
  obtain ⟨l₁, l₂, hl, hs, he, hr⟩ := scanFrom_some h
  exact ⟨l₁, l₂, hl, hs, he, hr⟩

theorem scanFrom_tickleMe : ∀ {l passed : List (Entry F C)} {b : Bool}, b = !passed.isEmpty →
    (scanFrom tid passed b l).tickleMe = !(scanFrom tid passed b l).rest.isEmpty
  | [], passed, b, h => by simp [scanFrom, h]
  | e :: l, passed, b, h => by
    rw [scanFrom]
    split
    · exact scanFrom_tickleMe (by simp)
    · cases passed <;> cases l <;> simp [h]

/-- **`tickle_me` is raised exactly where the scan leaves a task behind.** -/
theorem scan_tickleMe : (scan tid l).tickleMe = !(scan tid l).rest.isEmpty := scanFrom_tickleMe rfl

end Scan

end Sylar
