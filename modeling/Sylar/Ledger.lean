import Sylar.Lib.Counting
import Sylar.Lib.Transition
import Sylar.Task

/-!
# What the queue is for

The scheduler's tasks seen from far: a task is accepted into a queue, fetched by a worker that may run it, and finished
by that worker (`Ledger.system`). A worker holds at most one task. Nothing is said here about locks, fibers, counters or
threads that come and go; the models of the code refine this one.

- `account`: accepted = queued + held + finished, as multisets;
- `nonEmpty_queue`, `pinned_held`: no empty task is queued, and a pinned task is held by its thread only;
- `fetch_first`, `fetched_in_order`: a task is fetched before every later one that only its takers could take.
-/

namespace Sylar

open Trans

/-- The queue, who holds what, and the histories of accepted, fetched and finished tasks. -/
structure Ledger (W F C : Type) where
  queue : List (Entry F C)
  held : W → Option (Entry F C)
  accepted : List (Entry F C)
  fetched : List (Entry F C)
  finished : List (Entry F C)

namespace Ledger

inductive Op (W F C : Type) where
  | accept (t : ScheduleTask F C)
  | fetch (w : W)
  | finish (w : W)

variable {W F C : Type}

/-- Where an operation is possible. -/
def guard (tid : W → Int) (s : Ledger W F C) : Op W F C → Prop
  | .accept t => t.nonEmpty = true
  | .fetch w => s.held w = none ∧ (scan (tid w) s.queue).task ≠ none
  | .finish w => s.held w ≠ none

/-- What an operation does. -/
def next [DecidableEq W] (tid : W → Int) (s : Ledger W F C) : Op W F C → Ledger W F C
  | .accept t =>
    { s with
      queue := s.queue ++ [⟨s.accepted.length, t⟩]
      accepted := s.accepted ++ [⟨s.accepted.length, t⟩] }
  | .fetch w =>
    { s with
      queue := (scan (tid w) s.queue).rest
      held := Function.update s.held w (scan (tid w) s.queue).task
      fetched := s.fetched ++ (scan (tid w) s.queue).task.toList }
  | .finish w =>
    { s with
      held := Function.update s.held w none
      finished := s.finished ++ (s.held w).toList }

/-- No task yet. -/
def empty (W F C : Type) : Ledger W F C := ⟨[], fun _ => none, [], [], []⟩

/-- **The ledger.** -/
def system [DecidableEq W] (F C : Type) (tid : W → Int) : System (Ledger W F C) (Op W F C) where
  init s := s = empty W F C
  enabled := guard tid
  next := next tid

variable {tid : W → Int} {s : Ledger W F C}

/-! ## Order of acceptance -/

/-- The accepted tasks are numbered in order, and the queue keeps that order. -/
structure Ordered (s : Ledger W F C) : Prop where
  numbered : s.accepted.map Entry.seq = List.range s.accepted.length
  sub : s.queue.Sublist s.accepted

theorem Ordered.pairwise (h : Ordered s) : s.accepted.Pairwise (fun a b => a.seq < b.seq) := by
  have hr : (s.accepted.map Entry.seq).Pairwise (· < ·) := by rw [h.numbered]; exact List.pairwise_lt_range
  exact List.pairwise_map.1 hr

theorem Ordered.seq_lt (h : Ordered s) {e : Entry F C} (he : e ∈ s.accepted) : e.seq < s.accepted.length := by
  have hm : e.seq ∈ s.accepted.map Entry.seq := List.mem_map_of_mem he
  rw [h.numbered] at hm
  exact List.mem_range.1 hm

theorem mem_rest {w : W} {e : Entry F C} (he : e ∈ (scan (tid w) s.queue).rest) : e ∈ s.queue := by
  cases ht : (scan (tid w) s.queue).task with
  | none => rwa [(scan_none ht).1] at he
  | some x =>
    obtain ⟨l₁, l₂, hq, _, _, hr⟩ := scan_some ht
    rw [hr] at he
    rw [hq]
    rcases List.mem_append.1 he with he | he
    · exact List.mem_append_left _ he
    · exact List.mem_append_right _ (List.mem_cons_of_mem _ he)

variable [DecidableEq W]

theorem ordered_reach (h : (system F C tid).Reach Always s) : Ordered s := by
  induction h using System.Reach.induct with
  | start s hs => subst hs; exact ⟨rfl, List.Sublist.refl _⟩
  | step s a _ hg _ ih =>
    cases a with
    | accept t =>
      refine ⟨?_, ih.sub.append (List.Sublist.refl _)⟩
      show (s.accepted ++ [_]).map Entry.seq = List.range (s.accepted ++ [_]).length
      rw [List.map_append, ih.numbered, List.length_append, List.length_singleton, List.range_succ]
      rfl
    | fetch w =>
      refine ⟨ih.numbered, List.Sublist.trans ?_ ih.sub⟩
      show (scan (tid w) s.queue).rest.Sublist s.queue
      obtain ⟨e, he⟩ := Option.ne_none_iff_exists'.1 hg.2
      obtain ⟨l₁, l₂, hq, _, _, hr⟩ := scan_some he
      rw [hr, hq]
      exact List.Sublist.append (List.Sublist.refl _) (List.sublist_cons_self _ _)
    | finish w => exact ⟨ih.numbered, ih.sub⟩

/-! ## Nothing is lost, empty, or held by another thread -/

/-- The at most one task that a worker holds. -/
def inHand (o : Option (Entry F C)) : Multiset (Entry F C) := o.toList

theorem inHand_none : inHand (none : Option (Entry F C)) = 0 := rfl

/-- **Conservation**: every accepted task is queued, held by one worker or finished. -/
theorem account [Fintype W] (h : (system F C tid).Reach Always s) :
    (s.accepted : Multiset (Entry F C)) = s.queue + ∑ w, inHand (s.held w) + s.finished := by
  induction h using System.Reach.induct with
  | start s hs => subst hs; simp [empty, inHand_none]
  | step s a _ hg _ ih =>
    cases a with
    | accept t =>
      simp only [system, next, ← Multiset.coe_add, ih]
      ac_rfl
    | fetch w =>
      obtain ⟨e, he⟩ := Option.ne_none_iff_exists'.1 hg.2
      obtain ⟨l₁, l₂, hq, _, _, hr⟩ := scan_some he
      have hsum := Counting.sum_update inHand s.held w (some e)
      rw [hg.1] at hsum
      have hsplit : (s.queue : Multiset (Entry F C)) = inHand (some e) + ↑(l₁ ++ l₂) := by
        rw [hq, inHand, Option.toList_some, Multiset.coe_add]
        exact Multiset.coe_eq_coe.2 List.perm_middle
      simp only [system, next, he, hr]
      rw [ih, hsplit, ← add_zero (∑ v, inHand (Function.update s.held w (some e) v)), ← inHand_none, hsum]
      ac_rfl
    | finish w =>
      obtain ⟨e, he⟩ := Option.ne_none_iff_exists'.1 hg
      have hsum := Counting.sum_update inHand s.held w none
      rw [inHand_none, add_zero] at hsum
      simp only [system, next, ← Multiset.coe_add]
      rw [ih, ← hsum, inHand]
      ac_rfl

theorem nonEmpty_queue (h : (system F C tid).Reach Always s) : ∀ e ∈ s.queue, e.task.nonEmpty = true := by
  induction h using System.Reach.induct with
  | start s hs => subst hs; simp [empty]
  | step s a _ hg _ ih =>
    cases a with
    | accept t =>
      intro e he
      rcases List.mem_append.1 he with he | he
      · exact ih e he
      · rw [List.mem_singleton.1 he]; exact hg
    | fetch w => exact fun e he => ih e (mem_rest he)
    | finish w => exact ih

/-- A worker holds a task that is pinned to no other thread. -/
theorem pinned_held (h : (system F C tid).Reach Always s) :
    ∀ w, ∀ e ∈ s.held w, e.task.thread = -1 ∨ e.task.thread = tid w := by
  induction h using System.Reach.induct with
  | start s hs => subst hs; intro w e he; cases he
  | step s a _ hg _ ih =>
    cases a with
    | accept t => exact ih
    | fetch w =>
      intro v e he
      rcases eq_or_ne v w with rfl | hv
      · simp only [system, next, Function.update_self] at he
        obtain ⟨_, _, _, _, hns, _⟩ := scan_some he
        exact Entry.skipped_eq_false.1 hns
      · simp only [system, next, Function.update_of_ne hv] at he
        exact ih v e he
    | finish w =>
      intro v e he
      rcases eq_or_ne v w with rfl | hv
      · simp [system, next] at he
      · simp only [system, next, Function.update_of_ne hv] at he
        exact ih v e he

/-! ## First in, first out -/

theorem accepted_of_fetched (h : (system F C tid).Reach Always s) : ∀ e ∈ s.fetched, e ∈ s.accepted := by
  induction h using System.Reach.induct with
  | start s hs => subst hs; simp [empty]
  | step s a hr hg _ ih =>
    cases a with
    | accept t => exact fun e he => List.mem_append_left _ (ih e he)
    | fetch w =>
      intro e he
      rcases List.mem_append.1 he with he | he
      · exact ih e he
      · obtain ⟨l₁, l₂, hq, _⟩ := scan_some (Option.mem_toList.1 he)
        exact (ordered_reach hr).sub.subset (by rw [hq]; simp)
    | finish w => exact ih

/-- What is not queued any more has been fetched. -/
theorem queued_or_fetched (h : (system F C tid).Reach Always s) : ∀ e ∈ s.accepted, e ∈ s.queue ∨ e ∈ s.fetched := by
  induction h using System.Reach.induct with
  | start s hs => subst hs; simp [empty]
  | step s a _ hg _ ih =>
    cases a with
    | accept t =>
      intro e he
      rcases List.mem_append.1 he with he | he
      · exact (ih e he).imp_left (List.mem_append_left _)
      · exact Or.inl (List.mem_append_right _ he)
    | fetch w =>
      intro e he
      obtain ⟨x, hx⟩ := Option.ne_none_iff_exists'.1 hg.2
      obtain ⟨l₁, l₂, hq, _, _, hr⟩ := scan_some hx
      simp only [system, next, hx, hr, Option.toList_some, List.mem_append, List.mem_singleton]
      rcases ih e he with hm | hm
      · rw [hq] at hm
        simp only [List.mem_append, List.mem_cons] at hm
        tauto
      · exact Or.inr (Or.inl hm)
    | finish w => exact ih

omit [DecidableEq W] in
/-- **A task is never taken past an earlier one that its takers may take.** -/
theorem fetch_first (hord : Ordered s) {w : W} {a b : Entry F C} (hb : (scan (tid w) s.queue).task = some b)
    (ha : a ∈ s.queue) (hlt : a.seq < b.seq) : ¬a.Covers b := by
  intro hcov
  obtain ⟨l₁, l₂, hq, hs, hns, _⟩ := scan_some hb
  have hpw := hord.pairwise.sublist hord.sub
  rw [hq] at ha hpw
  -- an entry before `b` is skipped by this worker, an entry after `b` was accepted later
  rcases List.mem_append.1 ha with h₁ | h₂
  · have hsk := hs a h₁
    rw [Entry.not_skipped_of_covers hcov hns] at hsk
    cases hsk
  · rcases List.mem_cons.1 h₂ with rfl | h₂
    · exact Nat.lt_irrefl _ hlt
    · have hgt := (List.pairwise_cons.1 (List.pairwise_append.1 hpw).2.1).1 a h₂
      omega

/-- **Fetches happen in the order of acceptance**, for tasks of which the takers of the later may take the earlier. -/
theorem fetched_in_order (h : (system F C tid).Reach Always s) : ∀ l₁ b l₂, s.fetched = l₁ ++ b :: l₂ →
    ∀ a ∈ s.accepted, a.seq < b.seq → a.Covers b → a ∈ l₁ := by
  induction h using System.Reach.induct with
  | start s hs => subst hs; intro l₁ b l₂ h; simp [empty] at h
  | step s x hr hg _ ih =>
    have hord := ordered_reach hr
    cases x with
    | accept t =>
      intro l₁ b l₂ hf a ha hlt hcov
      rcases List.mem_append.1 ha with ha | ha
      · exact ih l₁ b l₂ hf a ha hlt hcov
      · -- a fetched task was accepted before the one accepted now
        have hb : b ∈ s.accepted := accepted_of_fetched hr b (by rw [show s.fetched = _ from hf]; simp)
        have hlt' := hord.seq_lt hb
        rw [List.mem_singleton.1 ha] at hlt
        dsimp only at hlt
        omega
    | fetch w =>
      intro l₁ b l₂ hf a ha hlt hcov
      obtain ⟨e, he⟩ := Option.ne_none_iff_exists'.1 hg.2
      simp only [system, next, he, Option.toList_some] at hf
      rcases List.eq_nil_or_concat' l₂ with rfl | ⟨l, x, rfl⟩
      · -- `b` is the task fetched now: the earlier ones have been fetched
        obtain ⟨hl, hx⟩ := List.append_inj' hf rfl
        cases hx
        rcases queued_or_fetched hr a ha with hq | hq
        · exact absurd hcov (fetch_first hord he hq hlt)
        · rwa [← hl]
      · have hf' : s.fetched ++ [e] = (l₁ ++ b :: l) ++ [x] := by simpa using hf
        exact ih l₁ b l (List.append_inj' hf' rfl).1 a ha hlt hcov
    | finish w => exact ih

end Ledger

end Sylar
