import Mathlib.Algebra.GroupWithZero.Nat
import Sylar.Fiber.Machine

/-!
# Fiber ids and the number of fibers

The two constructors of `Fiber`, its destructor, `reset`, `getRunningFiber` and `getFiberId` (`fiber.cpp`), on any
number of threads, with `_fiber_id` and `_fiber_count`. Each atomic increment and decrement is one step, and so is
whatever a constructor or destructor does between them: any number of them may be in progress, nested in each other or
on several threads. When a fiber is destroyed, and what `resume()`, `yield()` and `MainFunc` write into `m_state` and
`_running_fiber`, is left open. `getcontext` succeeds in the constructors.

- `Exact`, `exact_next`: the ids are distinct and below `_fiber_id`, and `_fiber_count` counts what has been added and
  not yet subtracted;
- `ids_exact`: what follows for the ids and for the fibers alive.
-/

namespace Sylar.Ids

open Trans
open Fibers (FiberState)

/-- Where a fiber is in its life: in its constructor in front of the id and of the count, constructed, in its destructor
in front of the count and behind it, and destroyed. -/
inductive Stage where
  | begun
  | numbered
  | alive
  | ending
  | discounted
  | gone
deriving DecidableEq, Repr

/-- `Fiber`; of `m_stackPtr` whether it is set. -/
structure Fiber where
  stage : Stage
  mId : UInt64
  mState : FiberState
  mStackPtr : Bool
deriving DecidableEq, Repr

/-- A thread's pointers; `making` is the main fiber that its `getRunningFiber()` constructs. A pointer is the number of
the fiber. -/
structure Thread where
  runningFiber : Option Nat
  mainFiber : Option Nat
  schedulerFiber : Option Nat
  making : Option Nat
  exited : Bool
deriving DecidableEq, Repr

/-- `fibers` are all the fibers whose construction has begun, in this order. -/
structure State (T : Type) where
  fiberId : UInt64
  fiberCount : UInt64
  fibers : List Fiber
  thread : T → Thread
  /-- An assertion has failed. -/
  aborted : Bool

/-- The steps of the threads `t` and of the constructors and destructors of the fibers `i`. `reset` has what
`getcontext` returns. -/
inductive Act (T : Type) where
  | construct (t : T) (stack : Bool)
  | getRunningFiber (t : T)
  | takeId (i : Nat)
  | addCount (i : Nat)
  | keepMain (t : T)
  | setRunningFiber (t : T) (f : Option Nat)
  | setState (i : Nat) (state : FiberState)
  | reset (t : T) (i : Nat) (got : Int)
  | exit (t : T)
  | destroy (i : Nat)
  | subCount (i : Nat)
  | free (i : Nat)

variable {T : Type} [DecidableEq T]

namespace State

/-- The fiber `i` is at this stage. -/
def at' (s : State T) (i : Nat) (stage : Stage) : Prop := (s.fibers[i]?).map Fiber.stage = some stage

instance (s : State T) (i : Nat) (stage : Stage) : Decidable (s.at' i stage) := inferInstanceAs (Decidable (_ = _))

/-- The thread runs, and is not in `getRunningFiber()`. -/
def able (s : State T) (t : T) : Prop := (s.thread t).exited = false ∧ (s.thread t).making = none

instance (s : State T) (t : T) : Decidable (s.able t) := inferInstanceAs (Decidable (_ ∧ _))

def setThread (s : State T) (t : T) (x : Thread) : State T := { s with thread := Function.update s.thread t x }

def alter (s : State T) (i : Nat) (f : Fiber → Fiber) : State T := { s with fibers := s.fibers.modify i f }

/-- `(uint64_t)-1`. -/
def noFiber : UInt64 := -1

/-- `Fiber::getFiberId()`. -/
def getFiberId (s : State T) (t : T) : UInt64 :=
  match (s.thread t).runningFiber with
  | some f => ((s.fibers[f]?).map Fiber.mId).getD 0
  | none => noFiber

end State

/-- No fiber has been constructed. -/
def initial (T : Type) : State T := ⟨0, 0, [], fun _ => ⟨none, none, none, none, false⟩, false⟩

/-- Where a step is possible. -/
def guard (s : State T) : Act T → Prop
  | .construct t _ | .getRunningFiber t | .exit t => s.able t
  | .takeId i => s.at' i .begun
  | .addCount i => s.at' i .numbered
  | .keepMain t => ∃ i ∈ (s.thread t).making, s.at' i .alive
  | .setRunningFiber t f => s.able t ∧ ∀ i ∈ f, i < s.fibers.length
  | .setState i _ | .destroy i => s.at' i .alive
  | .reset t i _ => s.able t ∧ s.at' i .alive
  | .subCount i => s.at' i .ending
  | .free i => s.at' i .discounted

/-- What a step does. -/
def next (s : State T) : Act T → State T
  | .construct _ stack => { s with fibers := s.fibers ++ [⟨.begun, 0, .ready, stack⟩] }
  | .getRunningFiber t =>
    match (s.thread t).runningFiber with
    | some _ => s
    | none =>
      -- `setRunningFiber(this)` comes first in the private constructor
      { s.setThread t
          { s.thread t with runningFiber := some s.fibers.length, making := some s.fibers.length } with
        fibers := s.fibers ++ [⟨.begun, 0, .running, false⟩] }
  | .takeId i =>
    { s.alter i fun x => { x with stage := .numbered, mId := s.fiberId } with fiberId := s.fiberId + 1 }
  | .addCount i => { s.alter i fun x => { x with stage := .alive } with fiberCount := s.fiberCount + 1 }
  | .keepMain t =>
    let t' := { s.thread t with
      mainFiber := (s.thread t).making, schedulerFiber := (s.thread t).making, making := none }
    if (s.thread t).runningFiber = (s.thread t).making then s.setThread t t' else { s with aborted := true }
  | .setRunningFiber t f => s.setThread t { s.thread t with runningFiber := f }
  | .setState i state => s.alter i fun x => { x with mState := state }
  | .reset t i got =>
    match s.fibers[i]? with
    | none => s
    | some x =>
      if x.mStackPtr = true ∧ x.mState = .term then
        -- where `getcontext` succeeds, `reset` ends the thread
        (s.alter i fun x => { x with mState := .ready }).setThread t { s.thread t with exited := got == 0 }
      else { s with aborted := true }
  | .exit t => s.setThread t { s.thread t with exited := true }
  | .destroy i => s.alter i fun x => { x with stage := .ending }
  | .subCount i => { s.alter i fun x => { x with stage := .discounted } with fiberCount := s.fiberCount - 1 }
  | .free i => s.alter i fun x => { x with stage := .gone, mStackPtr := false }

/-- **The fibers of a process.** -/
def system (T : Type) [DecidableEq T] : System (State T) (Act T) where
  init s := s = initial T
  enabled s a := s.aborted = false ∧ guard s a
  next := next

/-! ## The invariant -/

/-- The fiber has its id. -/
def Fiber.hasId (x : Fiber) : Bool :=
  match x.stage with
  | .begun => false
  | _ => true

/-- The fiber has been added to `_fiber_count` and not yet subtracted. -/
def Fiber.counted (x : Fiber) : Bool :=
  match x.stage with
  | .alive | .ending => true
  | _ => false

def Fiber.alive (x : Fiber) : Bool := x.stage == .alive

/-- **The invariant.** -/
structure Exact (s : State T) : Prop where
  ids : s.fiberId.toNat = s.fibers.countP Fiber.hasId
  count : s.fiberCount.toNat = s.fibers.countP Fiber.counted
  below : ∀ (i : Nat) (x : Fiber), s.fibers[i]? = some x → x.mId < s.fiberId ∨ x.hasId = false ∧ x.mId = 0
  distinct : ∀ (i j : Nat) (x y : Fiber), s.fibers[i]? = some x → s.fibers[j]? = some y → x.hasId = true →
    y.hasId = true → x.mId = y.mId → i = j
  running : ∀ t, ∀ i ∈ (s.thread t).runningFiber, i < s.fibers.length

/-- What an element that is changed contributes to a count. -/
theorem countP_modify {α : Type} (p : α → Bool) (f : α → α) : ∀ {l : List α} {i : Nat} {x : α}, l[i]? = some x →
    (l.modify i f).countP p + (p x).toNat = l.countP p + (p (f x)).toNat
  | y :: l, 0, x, h => by
    obtain rfl : y = x := by simpa using h
    simp only [List.modify_zero_cons, List.countP_cons]
    cases p y <;> cases p (f y) <;> simp
  | y :: l, i + 1, x, h => by
    have ih := countP_modify p f (l := l) (i := i) (x := x) (by simpa using h)
    simp only [List.modify_succ_cons, List.countP_cons]
    omega

/-- An element without the property leaves room in the count. -/
theorem countP_lt {α : Type} {p : α → Bool} : ∀ {l : List α} {i : Nat} {x : α}, l[i]? = some x → p x = false →
    l.countP p < l.length
  | y :: l, 0, x, h, hx => by
    obtain rfl : y = x := by simpa using h
    have hle := List.countP_le_length (p := p) (l := l)
    simp only [List.countP_cons, List.length_cons, hx]
    simp
    omega
  | y :: l, i + 1, x, h, hx => by
    have ih := countP_lt (l := l) (i := i) (x := x) (by simpa using h) hx
    simp only [List.countP_cons, List.length_cons]
    split <;> omega

variable {s : State T} {i : Nat}

omit [DecidableEq T] in
theorem exists_at {stage : Stage} (h : s.at' i stage) : ∃ x, s.fibers[i]? = some x ∧ x.stage = stage :=
  Option.map_eq_some_iff.1 h

omit [DecidableEq T] in
/-- What a fiber was before one of them has changed. -/
theorem getElem?_alter {f : Fiber → Fiber} {j : Nat} {y : Fiber} (h : (s.alter i f).fibers[j]? = some y) :
    ∃ x, s.fibers[j]? = some x ∧ y = if i = j then f x else x := by
  simp only [State.alter, List.getElem?_modify] at h
  obtain ⟨x, hx, hy⟩ := Option.map_eq_some_iff.1 h
  exact ⟨x, hx, hy.symm⟩

omit [DecidableEq T] in
/-- A fiber changes and keeps its id, and `_fiber_count` with the number of those that it counts. -/
theorem Exact.recount (h : Exact s) {f : Fiber → Fiber} {x : Fiber} (hx : s.fibers[i]? = some x)
    (hid : (f x).mId = x.mId) (hhas : (f x).hasId = x.hasId) {n : UInt64}
    (hn : n.toNat = (s.alter i f).fibers.countP Fiber.counted) : Exact { s.alter i f with fiberCount := n } := by
  have hkept : ∀ {j : Nat} {y : Fiber}, (s.alter i f).fibers[j]? = some y →
      ∃ z : Fiber, s.fibers[j]? = some z ∧ y.mId = z.mId ∧ y.hasId = z.hasId := by
    intro j y hy
    obtain ⟨z, hz, rfl⟩ := getElem?_alter hy
    refine ⟨z, hz, ?_⟩
    split
    · rename_i hij
      subst hij
      obtain rfl : z = x := Option.some_inj.1 (hz.symm.trans hx)
      exact ⟨hid, hhas⟩
    · exact ⟨rfl, rfl⟩
  refine ⟨?_, hn, ?_, ?_, ?_⟩
  · have hc := countP_modify Fiber.hasId f hx
    rw [hhas] at hc
    exact h.ids.trans (Nat.add_right_cancel hc).symm
  · intro j y hy
    obtain ⟨z, hz, hzid, hzhas⟩ := hkept hy
    rw [hzid, hzhas]
    exact h.below j z hz
  · intro j k y y' hy hy' hhy hhy' heq
    obtain ⟨z, hz, hzid, hzhas⟩ := hkept hy
    obtain ⟨z', hz', hzid', hzhas'⟩ := hkept hy'
    refine h.distinct j k z z' hz hz' (hzhas ▸ hhy) (hzhas' ▸ hhy') ?_
    rw [← hzid, ← hzid', heq]
  · intro t j hj
    simpa [State.alter] using h.running t j hj

omit [DecidableEq T] in
/-- A fiber changes, and keeps its id and whether it is counted. -/
theorem Exact.alter (h : Exact s) {f : Fiber → Fiber} {x : Fiber} (hx : s.fibers[i]? = some x)
    (hid : (f x).mId = x.mId) (hhas : (f x).hasId = x.hasId) (hcount : (f x).counted = x.counted) :
    Exact (s.alter i f) := by
  have hc := countP_modify Fiber.counted f hx
  rw [hcount] at hc
  exact h.recount hx hid hhas (h.count.trans (Nat.add_right_cancel hc).symm)

omit [DecidableEq T] in
/-- A construction begins. -/
theorem Exact.push (h : Exact s) (state : FiberState) (stack : Bool) :
    Exact { s with fibers := s.fibers ++ [⟨.begun, 0, state, stack⟩] } := by
  have hold : ∀ {j : Nat} {y : Fiber}, (s.fibers ++ [⟨.begun, 0, state, stack⟩])[j]? = some y →
      s.fibers[j]? = some y ∨ y.hasId = false ∧ y.mId = 0 := by
    intro j y hy
    rcases Nat.lt_or_ge j s.fibers.length with hj | hj
    · rw [List.getElem?_append_left hj] at hy
      exact Or.inl hy
    · rw [List.getElem?_append_right hj] at hy
      obtain rfl := List.mem_singleton.1 (List.mem_of_getElem? hy)
      exact Or.inr ⟨rfl, rfl⟩
  refine ⟨by simpa [Fiber.hasId] using h.ids, by simpa [Fiber.counted] using h.count, ?_, ?_, ?_⟩
  · intro j y hy
    rcases hold hy with hy | hy
    · exact h.below j y hy
    · exact Or.inr hy
  · intro j k y y' hy hy' hhy hhy' heq
    rcases hold hy with hy | ⟨hn, -⟩
    · rcases hold hy' with hy' | ⟨hn, -⟩
      · exact h.distinct j k y y' hy hy' hhy hhy' heq
      · cases hn.symm.trans hhy'
    · cases hn.symm.trans hhy
  · intro t j hj
    have hlt := h.running t j hj
    simp only [List.length_append, List.length_singleton]
    omega

/-- A thread's pointers change. -/
theorem Exact.setThread (h : Exact s) {t : T} {x : Thread} (hx : ∀ i ∈ x.runningFiber, i < s.fibers.length) :
    Exact (s.setThread t x) := by
  refine ⟨h.ids, h.count, h.below, h.distinct, fun u j hj => ?_⟩
  rcases eq_or_ne u t with rfl | hne
  · simp only [State.setThread, Function.update_self] at hj
    exact hx j hj
  · simp only [State.setThread, Function.update_of_ne hne] at hj
    exact h.running u j hj

theorem exact_takeId (h : Exact s) (hg : s.at' i .begun) (hn : s.fibers.length < 2 ^ 64 - 1) :
    Exact (next s (.takeId i)) := by
  obtain ⟨x, hx, hstage⟩ := exists_at hg
  have hnone : x.hasId = false := by simp [Fiber.hasId, hstage]
  have hroom := countP_lt hx hnone
  have hids := h.ids
  have hsucc : (s.fiberId + 1).toNat = s.fiberId.toNat + 1 := by
    rw [UInt64.toNat_add]
    exact Nat.mod_eq_of_lt (by simp; omega)
  have hlt : ∀ m : UInt64, m < s.fiberId → m < s.fiberId + 1 := by
    intro m hm
    rw [UInt64.lt_iff_toNat_lt] at hm ⊢
    omega
  -- nobody has the next id
  have hfresh : ∀ (j : Nat) (y : Fiber), s.fibers[j]? = some y → y.hasId = true → y.mId ≠ s.fiberId := by
    rintro j y hy hhas heq
    rcases h.below j y hy with hb | ⟨hb, -⟩
    · rw [heq] at hb
      exact UInt64.lt_irrefl _ hb
    · cases hb.symm.trans hhas
  refine ⟨?_, ?_, ?_, ?_, ?_⟩
  · have hc := countP_modify Fiber.hasId (fun x => { x with stage := .numbered, mId := s.fiberId }) hx
    rw [hnone] at hc
    exact hsucc.trans (by rw [hids]; exact hc.symm)
  · have hc := countP_modify Fiber.counted (fun x => { x with stage := .numbered, mId := s.fiberId }) hx
    rw [show x.counted = false by simp [Fiber.counted, hstage]] at hc
    exact h.count.trans hc.symm
  · intro j y hy
    obtain ⟨z, hz, rfl⟩ := getElem?_alter hy
    split
    · left
      show s.fiberId < s.fiberId + 1
      rw [UInt64.lt_iff_toNat_lt]
      omega
    · exact (h.below j z hz).imp (hlt _) id
  · intro j k y y' hy hy' hhy hhy' heq
    obtain ⟨z, hz, rfl⟩ := getElem?_alter hy
    obtain ⟨z', hz', rfl⟩ := getElem?_alter hy'
    by_cases hj : i = j <;> by_cases hk : i = k
    · exact hj.symm.trans hk
    · simp only [if_pos hj, if_neg hk] at heq hhy'
      exact absurd heq.symm (hfresh k z' hz' hhy')
    · simp only [if_neg hj, if_pos hk] at heq hhy
      exact absurd heq (hfresh j z hz hhy)
    · simp only [if_neg hj, if_neg hk] at heq hhy hhy'
      exact h.distinct j k z z' hz hz' hhy hhy' heq
  · intro t j hj
    simpa [next, State.alter] using h.running t j hj

theorem exact_addCount (h : Exact s) (hg : s.at' i .numbered) (hn : s.fibers.length < 2 ^ 64 - 1) :
    Exact (next s (.addCount i)) := by
  obtain ⟨x, hx, hstage⟩ := exists_at hg
  have hnone : x.counted = false := by simp [Fiber.counted, hstage]
  have hroom := countP_lt hx hnone
  have hcount := h.count
  have hc := countP_modify Fiber.counted (fun x => { x with stage := .alive }) hx
  rw [hnone] at hc
  refine h.recount hx rfl (by simp [Fiber.hasId, hstage]) ?_
  rw [UInt64.toNat_add]
  refine (Nat.mod_eq_of_lt (by simp; omega)).trans ?_
  rw [hcount]
  exact hc.symm

/-- The destructor of a fiber subtracts what its constructor has added. -/
theorem exact_subCount (h : Exact s) (hg : s.at' i .ending) : Exact (next s (.subCount i)) := by
  obtain ⟨x, hx, hstage⟩ := exists_at hg
  have hcounted : x.counted = true := by simp [Fiber.counted, hstage]
  have hpos : 0 < s.fibers.countP Fiber.counted := List.countP_pos_iff.2 ⟨x, List.mem_of_getElem? hx, hcounted⟩
  have hcount := h.count
  have hc := countP_modify Fiber.counted (fun x => { x with stage := .discounted }) hx
  rw [hcounted] at hc
  change _ + 1 = _ + 0 at hc
  refine h.recount hx rfl (by simp [Fiber.hasId, hstage]) ?_
  rw [UInt64.toNat_sub_of_le _ _ (by rw [UInt64.le_iff_toNat_le]; change 1 ≤ _; omega)]
  change s.fiberCount.toNat - 1 = (s.fibers.modify i _).countP Fiber.counted
  omega

/-- **Every step keeps the invariant**, while fewer than `2 ^ 64 - 1` constructions have begun. -/
theorem exact_next (h : Exact s) {a : Act T} (hg : guard s a) (hn : s.fibers.length < 2 ^ 64 - 1) :
    Exact (next s a) := by
  have hsame : ∀ {i : Nat} {stage : Stage} {f : Fiber → Fiber}, s.at' i stage →
      (∀ x, x.stage = stage → (f x).mId = x.mId ∧ (f x).hasId = x.hasId ∧ (f x).counted = x.counted) →
      Exact (s.alter i f) := by
    intro i stage f hat hf
    obtain ⟨x, hx, hstage⟩ := exists_at hat
    obtain ⟨hid, hhas, hcount⟩ := hf x hstage
    exact h.alter hx hid hhas hcount
  cases a with
  | construct t stack => exact h.push .ready stack
  | getRunningFiber t =>
    simp only [next]
    split
    · exact h
    · have hp := h.push .running false
      exact hp.setThread (t := t) (by simp)
  | takeId i => exact exact_takeId h hg hn
  | addCount i => exact exact_addCount h hg hn
  | keepMain t =>
    simp only [next]
    split
    · exact h.setThread (h.running t)
    · exact ⟨h.ids, h.count, h.below, h.distinct, h.running⟩
  | setRunningFiber t f => exact h.setThread hg.2
  | setState i state => exact hsame hg fun x _ => ⟨rfl, rfl, rfl⟩
  | reset t i got =>
    simp only [next]
    split
    · exact h
    · rename_i x hx
      split
      · have hset := hsame (f := fun x => { x with mState := .ready }) hg.2 fun x _ => ⟨rfl, rfl, rfl⟩
        refine hset.setThread ?_
        simpa [State.alter] using h.running t
      · exact ⟨h.ids, h.count, h.below, h.distinct, h.running⟩
  | exit t => exact h.setThread (h.running t)
  | destroy i =>
    refine hsame hg fun x hstage => ⟨rfl, ?_, ?_⟩
    · simp [Fiber.hasId, hstage]
    · simp [Fiber.counted, hstage]
  | subCount i => exact exact_subCount h hg
  | free i =>
    refine hsame hg fun x hstage => ⟨rfl, ?_, ?_⟩
    · simp [Fiber.hasId, hstage]
    · simp [Fiber.counted, hstage]

/-- Constructions only begin. -/
theorem length_next (s : State T) (a : Act T) : s.fibers.length ≤ (next s a).fibers.length := by
  cases a with
  | construct t stack => simp [next]
  | getRunningFiber t => simp only [next]; split <;> simp
  | keepMain t => simp only [next]; split <;> exact Nat.le_refl _
  | reset t i got =>
    simp only [next]
    split
    · exact Nat.le_refl _
    · split <;> simp [State.alter, State.setThread]
  | setRunningFiber t f | exit t => exact Nat.le_refl _
  | takeId i | addCount i | setState i state | destroy i | subCount i | free i => simp [next, State.alter]

theorem exact_reach (h : (system T).Reach Always s) : s.fibers.length < 2 ^ 64 - 1 → Exact s := by
  induction h using System.Reach.induct with
  | start s hs =>
    have hs : s = initial T := hs
    subst hs
    intro _
    refine ⟨rfl, rfl, ?_, ?_, ?_⟩
    · intro i x hx
      cases hx
    · intro i j x y hx
      cases hx
    · intro t i hi
      cases hi
  | step s a hr he _ ih =>
    intro hn
    have hlt : s.fibers.length < 2 ^ 64 - 1 := Nat.lt_of_le_of_lt (length_next s a) hn
    exact exact_next (ih hlt) he.2 hlt

omit [DecidableEq T] in
/-- No fiber has the id of no fiber. -/
theorem Exact.id_ne (h : Exact s) (hn : s.fibers.length < 2 ^ 64 - 1) : ∀ x ∈ s.fibers, x.mId ≠ State.noFiber := by
  intro x hx heq
  obtain ⟨i, hi⟩ := List.mem_iff_getElem?.1 hx
  have hids := h.ids
  have hle := List.countP_le_length (p := Fiber.hasId) (l := s.fibers)
  have hmax : State.noFiber.toNat = 2 ^ 64 - 1 := rfl
  rcases h.below i x hi with hb | ⟨-, hzero⟩
  · rw [heq, UInt64.lt_iff_toNat_lt] at hb
    omega
  · rw [hzero] at heq
    exact absurd heq (by decide)

/-- **Ids and counts are exact.** In every run with fewer than `2 ^ 64 - 1` constructions no two fibers have the same
id, none has the one that `getFiberId()` returns where no fiber runs, and where no constructor or destructor is in
progress `_fiber_count` is the number of fibers alive. -/
theorem ids_exact (h : (system T).Reach Always s) (hn : s.fibers.length < 2 ^ 64 - 1) :
    (∀ (i j : Nat) (x y : Fiber), s.fibers[i]? = some x → s.fibers[j]? = some y → x.hasId = true → y.hasId = true →
      x.mId = y.mId → i = j) ∧
    (∀ x ∈ s.fibers, x.mId ≠ State.noFiber) ∧
    (∀ t, s.getFiberId t = State.noFiber ↔ (s.thread t).runningFiber = none) ∧
    ((∀ x ∈ s.fibers, x.stage = .alive ∨ x.stage = .gone) →
      s.fiberCount.toNat = s.fibers.countP Fiber.alive) := by
  have hexact := exact_reach h hn
  have hne := hexact.id_ne hn
  refine ⟨hexact.distinct, hne, fun t => ?_, fun hrest => ?_⟩
  · unfold State.getFiberId
    cases hrun : (s.thread t).runningFiber with
    | none => simp
    | some f =>
      have hlt := hexact.running t f hrun
      simp only [List.getElem?_eq_getElem hlt]
      simpa using hne _ (List.getElem_mem hlt)
  · rw [hexact.count]
    refine List.countP_congr fun x hx => ?_
    rcases hrest x hx with hs | hs <;> simp [Fiber.counted, Fiber.alive, hs]

instance (s : State T) : ∀ a, Decidable (guard s a)
  | .construct t _ | .getRunningFiber t | .exit t => inferInstanceAs (Decidable (s.able t))
  | .takeId i => inferInstanceAs (Decidable (s.at' i .begun))
  | .addCount i => inferInstanceAs (Decidable (s.at' i .numbered))
  | .keepMain t => inferInstanceAs (Decidable (∃ i ∈ (s.thread t).making, s.at' i .alive))
  | .setRunningFiber t f => inferInstanceAs (Decidable (s.able t ∧ ∀ i ∈ f, i < s.fibers.length))
  | .setState i _ | .destroy i => inferInstanceAs (Decidable (s.at' i .alive))
  | .reset t i _ => inferInstanceAs (Decidable (s.able t ∧ s.at' i .alive))
  | .subCount i => inferInstanceAs (Decidable (s.at' i .ending))
  | .free i => inferInstanceAs (Decidable (s.at' i .discounted))

instance (s : State T) (a : Act T) : Decidable ((system T).enabled s a) := inferInstanceAs (Decidable (_ ∧ guard s a))

/-- Two threads make their main fibers at once, and then a fiber each. One of these is reset, the other destroyed. -/
def pairRun (t u : T) : List (Act T) :=
  [.getRunningFiber t, .getRunningFiber u, .takeId 1, .takeId 0, .addCount 0, .addCount 1, .keepMain t, .keepMain u,
    .construct t true, .construct u true, .takeId 3, .addCount 3, .takeId 2, .destroy 3, .addCount 2, .subCount 3,
    .free 3, .setState 2 .term, .reset u 2 0]

theorem ids_exact_pair : ∃ s : State (Fin 2), s.fibers.map Fiber.mId = [1, 0, 3, 2] ∧
    (∀ x ∈ s.fibers, x.mId ≠ State.noFiber) ∧ s.fiberCount = 3 ∧
    s.fiberCount.toNat = s.fibers.countP Fiber.alive := by
  have h : (System.exec (system (Fin 2)) Always (initial (Fin 2)) (pairRun 0 1)).any (fun s =>
      s.fibers.map Fiber.mId == [1, 0, 3, 2] &&
        (s.fibers.map Fiber.stage == [.alive, .alive, .alive, .gone] && s.fiberCount == 3)) = true := by
    decide
  obtain ⟨s, hsteps, hq⟩ := System.exists_exec h
  simp only [Bool.and_eq_true, beq_iff_eq] at hq
  obtain ⟨hids, hstages, hcount⟩ := hq
  have hlen : s.fibers.length = 4 := by simpa using congrArg List.length hids
  have hr : (system (Fin 2)).Reach Always s := (System.Reach.start rfl).steps hsteps
  obtain ⟨-, hne, -, hexact⟩ := ids_exact hr (by rw [hlen]; decide)
  have hrest : ∀ stage ∈ s.fibers.map Fiber.stage, stage = .alive ∨ stage = .gone := by
    rw [hstages]
    decide
  exact ⟨s, hids, hne, hcount, hexact fun x hx => hrest _ (List.mem_map_of_mem hx)⟩

end Sylar.Ids
