import Sylar.Thread.Start

/-!
# The current thread

`Thread::Thread`, `~Thread`, `join`, `run`, `getRunningThread` and `setRunningThreadName` (`thread.cpp`), for any number
of `Thread` objects with the child that each of them creates, in any interleaving of the calls on the objects with the
children. The constructor waits until the child has signalled. From then on the object may go: the destructor detaches a
thread that was not joined, and the child's `cur_thread` still points to it.

- `Ok`, `ok_next`: what the calls on an object say of its child;
- `Safe`: no child that runs points to a destroyed object, and no step touches one; `safe_of_late`, `late_of_safe`;
- `current_kept`: the runs whose states are safe.
-/

namespace Sylar.Current

open Trans
open Start (Side isWait wait_semaphore signal_semaphore)

/-- The bytes of a `std::string`. -/
abbrev Name := List UInt8

/-- Where a child stands in `Thread::run`; in `body` it is in `callback()`. -/
inductive ChildPc where
  | unborn
  | current
  | name
  | setId
  | osName
  | swap
  | signal
  | call
  | body
  | done
deriving DecidableEq, Repr

/-- The call on a `Thread` that is in progress: in the constructor at `pthread_create` and at `_semaphore.wait()`, none
(`ready`), in `pthread_join`, or in the destructor behind `pthread_detach`. `failed` is behind a constructor that has
thrown. -/
inductive CallPc where
  | fresh
  | create
  | wait
  | ready
  | join
  | leave
  | gone
  | failed
deriving DecidableEq, Repr

/-- The members of `Thread`; of `_thread` whether it is set. -/
structure Thread (C : Type) where
  id : Int
  name : Name
  thread : Bool
  semaphore : Semaphore.State Side
  mCallback : Option C
  call : CallPc

/-- A child: its thread-local variables, its name in the kernel, and the local `callback` of `run`. `detached` is a
history. -/
structure Child (C : Type) where
  pc : ChildPc
  curThread : Option Nat
  curThreadName : Name
  osName : Name
  callback : Option C
  detached : Bool

/-- The `i`-th object and its child. -/
structure State (C : Type) where
  obj : Nat → Thread C
  child : Nat → Child C
  /-- An empty callback was called. -/
  aborted : Bool

/-- The steps: of the calls on an object, where `ok` is what `pthread_create` and `pthread_join` return, and of its
child. -/
inductive Act (C : Type) where
  | construct (i : Nat) (callback : Option C) (name : Name)
  | create (i : Nat) (ok : Bool)
  | wait (i : Nat) (a : Semaphore.Act Side)
  | join (i : Nat)
  | joined (i : Nat) (ok : Bool)
  | detach (i : Nat)
  | destroy (i : Nat)
  | setCurrent (i : Nat)
  | setName (i : Nat)
  | setId (i : Nat)
  | setOsName (i : Nat)
  | swap (i : Nat)
  | signal (i : Nat) (notified : Option Side)
  | invoke (i : Nat)
  | setRunningThreadName (i : Nat) (name : Name)
  | ret (i : Nat)

variable {C : Type}

/-- The object has been constructed, or is being constructed, and is not destroyed. -/
def Thread.alive (t : Thread C) : Bool :=
  match t.call with
  | .fresh | .gone | .failed => false
  | _ => true

/-- The child is in `Thread::run`. -/
def ChildPc.running : ChildPc → Bool
  | .unborn | .done => false
  | _ => true

/-- `"UNKNOWN"`. -/
def unknown : Name := [85, 78, 75, 78, 79, 87, 78]

/-- What a C function reads of `c_str()`: the bytes in front of the first NUL. -/
def cStr (name : Name) : Name := name.takeWhile (· != 0)

/-- A child at the beginning of `Thread::run`. -/
def Child.fresh (pc : ChildPc) : Child C := ⟨pc, none, unknown, [], none, false⟩

namespace State

/-- The `i`-th object and its child move. -/
@[simp] def set (s : State C) (i : Nat) (t : Thread C) (x : Child C) : State C :=
  { s with obj := Function.update s.obj i t, child := Function.update s.child i x }

/-- `Thread::getRunningThread()` on the `i`-th child. -/
def getRunningThread (s : State C) (i : Nat) : Option Nat := (s.child i).curThread

end State

/-- No `Thread` has been constructed. -/
def initial (C : Type) : State C where
  obj _ := ⟨-1, [], false, Semaphore.initial Side 0, none, .fresh⟩
  child _ := .fresh .unborn
  aborted := false

/-- Where a step is possible. -/
def guard (s : State C) : Act C → Prop
  | .construct i _ _ => (s.obj i).call = .fresh
  | .create i _ => (s.obj i).call = .create
  | .wait i a => (s.obj i).call = .wait ∧ isWait a ∧ Semaphore.guard (s.obj i).semaphore a
  | .join i | .detach i => (s.obj i).call = .ready
  | .joined i ok => (s.obj i).call = .join ∧ (ok = true → (s.child i).pc = .done)
  | .destroy i => (s.obj i).call = .leave
  | .setCurrent i => (s.child i).pc = .current
  | .setName i => (s.child i).pc = .name
  | .setId i => (s.child i).pc = .setId
  | .setOsName i => (s.child i).pc = .osName
  | .swap i => (s.child i).pc = .swap
  | .signal i notified => (s.child i).pc = .signal ∧ Semaphore.guard (s.obj i).semaphore (.signal .child notified)
  | .invoke i => (s.child i).pc = .call
  | .setRunningThreadName i _ | .ret i => (s.child i).pc = .body

/-- What a step does. `tid i` is the kernel's id of the `i`-th child. -/
def next (tid : Nat → Int) (s : State C) : Act C → State C
  | .construct i cb name => s.set i ⟨-1, name, false, Semaphore.initial Side 0, cb, .create⟩ (s.child i)
  | .create i ok =>
    if ok then s.set i { s.obj i with thread := true, call := .wait } (.fresh .current)
    else s.set i { s.obj i with call := .failed } (s.child i)
  | .wait i a =>
    let sem := Semaphore.next (s.obj i).semaphore a
    s.set i { s.obj i with semaphore := sem, call := if sem.pc .parent = .out then .ready else .wait } (s.child i)
  | .join i => s.set i { s.obj i with call := if (s.obj i).thread then .join else .ready } (s.child i)
  | .joined i ok =>
    -- a `pthread_join` that fails throws, and `_thread` keeps its value
    s.set i { s.obj i with thread := if ok then false else (s.obj i).thread, call := .ready } (s.child i)
  | .detach i =>
    s.set i { s.obj i with thread := false, call := .leave }
      { s.child i with detached := (s.obj i).thread || (s.child i).detached }
  | .destroy i => s.set i { s.obj i with call := .gone } (s.child i)
  | .setCurrent i => s.set i (s.obj i) { s.child i with curThread := some i, pc := .name }
  | .setName i => s.set i (s.obj i) { s.child i with curThreadName := (s.obj i).name, pc := .setId }
  | .setId i => s.set i { s.obj i with id := tid i } { s.child i with pc := .osName }
  | .setOsName i => s.set i (s.obj i) { s.child i with osName := cStr ((s.obj i).name.take 15), pc := .swap }
  | .swap i =>
    s.set i { s.obj i with mCallback := (s.child i).callback }
      { s.child i with callback := (s.obj i).mCallback, pc := .signal }
  | .signal i notified =>
    s.set i { s.obj i with semaphore := Semaphore.next (s.obj i).semaphore (.signal .child notified) }
      { s.child i with pc := .call }
  | .invoke i =>
    match (s.child i).callback with
    | none => { s with aborted := true }
    | some _ => s.set i (s.obj i) { s.child i with pc := .body }
  | .setRunningThreadName i name =>
    let s' := { s with child := Function.update s.child i { s.child i with curThreadName := name } }
    match (s.child i).curThread with
    | none => s'
    | some j => { s' with obj := Function.update s.obj j { s.obj j with name := name } }
  | .ret i => s.set i (s.obj i) { s.child i with pc := .done }

/-- **The `Thread` objects and their children.** -/
def system (C : Type) (tid : Nat → Int) : System (State C) (Act C) where
  init s := s = initial C
  enabled s a := s.aborted = false ∧ guard s a
  next := next tid

/-- The object whose members a step reads or writes. -/
def touches (s : State C) : Act C → Option Nat
  | .create i _ | .wait i _ | .join i | .joined i _ | .detach i | .destroy i => some i
  | .setName i | .setId i | .setOsName i | .swap i | .signal i _ => some i
  | .setRunningThreadName i _ => (s.child i).curThread
  | .construct _ _ _ | .setCurrent _ | .invoke _ | .ret _ => none

/-! ## The invariant -/

/-- `pthread_create` has created the child. -/
def CallPc.born : CallPc → Bool
  | .fresh | .create | .failed => false
  | _ => true

/-- The constructor has returned. -/
def CallPc.returned : CallPc → Bool
  | .ready | .join | .leave | .gone => true
  | _ => false

/-- The child has set `cur_thread`. -/
def ChildPc.known : ChildPc → Bool
  | .unborn | .current => false
  | _ => true

/-- The child has signalled. -/
def ChildPc.signalled : ChildPc → Bool
  | .call | .body | .done => true
  | _ => false

/-- What the call on an object says of its child. -/
structure Ok (i : Nat) (t : Thread C) (x : Child C) : Prop where
  born : x.pc = .unborn ↔ t.call.born = false
  current : x.curThread = if x.pc.known then some i else none
  semaphore : Semaphore.Inv 0 t.semaphore
  signals : t.semaphore.signals = x.pc.signalled.toNat
  waits : t.semaphore.waits = t.call.returned.toNat
  child : t.semaphore.pc .child = .out

/-- **The invariant.** -/
def Inv (s : State C) : Prop := ∀ i, Ok i (s.obj i) (s.child i)

variable {tid : Nat → Int} {s : State C} {i : Nat}

/-- A constructor that has returned has had the child's signal. -/
theorem Ok.signalled {t : Thread C} {x : Child C} (h : Ok i t x) (hr : t.call.returned = true) :
    x.pc.signalled = true := by
  obtain ⟨hcount, hnonneg, -, -⟩ := h.semaphore
  rw [h.signals, h.waits, hr] at hcount
  cases hs : x.pc.signalled with
  | true => rfl
  | false =>
    rw [hs] at hcount
    simp at hcount
    omega

/-- An object that has a child which has not signalled is in its constructor. -/
theorem Ok.waiting {t : Thread C} {x : Child C} (h : Ok i t x) (hb : x.pc ≠ .unborn)
    (hs : x.pc.signalled = false) : t.call = .wait := by
  have hborn : t.call.born = true := by
    cases hc : t.call.born with
    | true => rfl
    | false => exact absurd (h.born.2 hc) hb
  have hret : t.call.returned = false := by
    cases hr : t.call.returned with
    | false => rfl
    | true =>
      rw [h.signalled hr] at hs
      cases hs
  cases hc : t.call with
  | wait => rfl
  | fresh | create | failed =>
    rw [hc] at hborn
    cases hborn
  | ready | join | leave | gone =>
    rw [hc] at hret
    cases hret

/-- An object and its child move. -/
theorem Inv.set (h : Inv s) {t : Thread C} {x : Child C} (hi : Ok i t x) : Inv (s.set i t x) := by
  intro j
  rcases eq_or_ne j i with rfl | hne
  · simpa using hi
  · simpa [hne] using h j

/-- The call on an object goes on. -/
theorem Ok.moved {t t' : Thread C} {x x' : Child C} (h : Ok i t x) (hpc : x'.pc = x.pc)
    (hcur : x'.curThread = x.curThread) (hsem : t'.semaphore = t.semaphore) (hb : t'.call.born = t.call.born)
    (hr : t'.call.returned = t.call.returned) : Ok i t' x' := by
  refine ⟨?_, ?_, ?_, ?_, ?_, ?_⟩
  · rw [hpc, hb]
    exact h.born
  · rw [hcur, hpc]
    exact h.current
  · rw [hsem]
    exact h.semaphore
  · rw [hsem, hpc]
    exact h.signals
  · rw [hsem, hr]
    exact h.waits
  · rw [hsem]
    exact h.child

/-- A child moves on, without its semaphore. -/
theorem Ok.went {t t' : Thread C} {x x' : Child C} (h : Ok i t x) (hb : x.pc ≠ .unborn) (hb' : x'.pc ≠ .unborn)
    (hcur : x'.curThread = if x'.pc.known then some i else none) (hsig : x'.pc.signalled = x.pc.signalled)
    (hsem : t'.semaphore = t.semaphore) (hcall : t'.call = t.call) : Ok i t' x' := by
  refine ⟨⟨fun hn => absurd hn hb', fun hn => absurd (h.born.2 (hcall ▸ hn)) hb⟩, hcur, ?_, ?_, ?_, ?_⟩
  · rw [hsem]
    exact h.semaphore
  · rw [hsem, hsig]
    exact h.signals
  · rw [hsem, hcall]
    exact h.waits
  · rw [hsem]
    exact h.child

theorem ok_create (h : Ok i (s.obj i) (s.child i)) (hcall : (s.obj i).call = .create) :
    Ok i { s.obj i with thread := true, call := .wait } (Child.fresh .current : Child C) := by
  have hpc := h.born.2 (by rw [hcall]; rfl)
  have hsignals := h.signals
  have hwaits := h.waits
  rw [hpc] at hsignals
  rw [hcall] at hwaits
  exact ⟨by simp [Child.fresh, CallPc.born], rfl, h.semaphore, hsignals, hwaits, h.child⟩

theorem ok_wait (h : Ok i (s.obj i) (s.child i)) {a : Semaphore.Act Side} (hg : guard s (.wait i a)) :
    Ok i { s.obj i with
      semaphore := Semaphore.next (s.obj i).semaphore a
      call := if (Semaphore.next (s.obj i).semaphore a).pc .parent = .out then .ready else .wait } (s.child i) := by
  obtain ⟨hcall, hwait, hsem⟩ := hg
  obtain ⟨hsignals, hchild, hwaits⟩ := wait_semaphore hwait hsem
  have hrange : Semaphore.InRange 0 (s.obj i).semaphore a := by
    cases a with
    | signal t u => cases hwait
    | _ => trivial
  have hborn := h.born
  have hcount := h.waits
  rw [hcall] at hborn hcount
  refine ⟨?_, h.current, Semaphore.inv_next h.semaphore hsem hrange, hsignals.trans h.signals, ?_,
    hchild.trans h.child⟩
  · refine hborn.trans ?_
    dsimp only
    split <;> rfl
  · dsimp only
    rw [hwaits, hcount]
    split <;> rfl

theorem ok_signal (h : Ok i (s.obj i) (s.child i)) {notified : Option Side} (hg : guard s (.signal i notified)) :
    Ok i { s.obj i with semaphore := Semaphore.next (s.obj i).semaphore (.signal .child notified) }
      { s.child i with pc := .call } := by
  obtain ⟨hpc, hsem⟩ := hg
  have hzero := h.signals
  have hcur := h.current
  have hborn := h.born
  rw [hpc] at hzero hcur hborn
  obtain ⟨hinv, hone, hchild⟩ := signal_semaphore h.semaphore hzero h.child hsem
  refine ⟨⟨fun hn => ?_, fun hn => ?_⟩, hcur, hinv, hone, h.waits, hchild⟩
  · cases hn
  · cases hborn.2 hn

/-- **Every step keeps the invariant.** -/
theorem inv_next (h : Inv s) {a : Act C} (hg : guard s a) : Inv (next tid s a) := by
  cases a with
  | construct i cb name =>
    have hcall : (s.obj i).call = .fresh := hg
    have hpc := (h i).born.2 (by rw [hcall]; rfl)
    refine h.set ⟨by simp [hpc, CallPc.born], (h i).current, ?_, by simp [Semaphore.initial, hpc, ChildPc.signalled],
      rfl, rfl⟩
    exact Semaphore.inv_initial (by omega) (by omega)
  | create i ok =>
    have hcall : (s.obj i).call = .create := hg
    simp only [next]
    split
    · exact h.set (ok_create (h i) hcall)
    · exact h.set ((h i).moved rfl rfl rfl (by rw [hcall]; rfl) (by rw [hcall]; rfl))
  | wait i a => exact h.set (ok_wait (h i) hg)
  | join i =>
    have hcall : (s.obj i).call = .ready := hg
    refine h.set ((h i).moved rfl rfl rfl ?_ ?_)
    · rw [hcall]
      dsimp only
      split <;> rfl
    · rw [hcall]
      dsimp only
      split <;> rfl
  | joined i ok => exact h.set ((h i).moved rfl rfl rfl (by rw [hg.1]; rfl) (by rw [hg.1]; rfl))
  | detach i =>
    have hcall : (s.obj i).call = .ready := hg
    exact h.set ((h i).moved rfl rfl rfl (by rw [hcall]; rfl) (by rw [hcall]; rfl))
  | destroy i =>
    have hcall : (s.obj i).call = .leave := hg
    exact h.set ((h i).moved rfl rfl rfl (by rw [hcall]; rfl) (by rw [hcall]; rfl))
  | setCurrent i =>
    have hpc : (s.child i).pc = .current := hg
    exact h.set ((h i).went (by simp [hpc]) (by simp) rfl (by rw [hpc]; rfl) rfl rfl)
  | setName i | setId i | setOsName i | swap i | ret i =>
    have hpc : (s.child i).pc = _ := hg
    have hcur := (h i).current
    rw [hpc] at hcur
    exact h.set ((h i).went (by simp [hpc]) (by simp) hcur (by rw [hpc]; rfl) rfl rfl)
  | signal i notified => exact h.set (ok_signal (h i) hg)
  | invoke i =>
    have hpc : (s.child i).pc = .call := hg
    have hcur := (h i).current
    rw [hpc] at hcur
    simp only [next]
    split
    · exact h
    · exact h.set ((h i).went (by simp [hpc]) (by simp) hcur (by rw [hpc]; rfl) rfl rfl)
  | setRunningThreadName i name =>
    have hpc : (s.child i).pc = .body := hg
    have hcur : (s.child i).curThread = some i := by
      rw [(h i).current, hpc]
      rfl
    simp only [next, hcur]
    exact h.set ((h i).moved rfl hcur.symm rfl rfl rfl)

theorem inv_reach {P : State C → Act C → Prop} (h : (system C tid).Reach P s) : Inv s := by
  induction h using System.Reach.induct with
  | start s hs =>
    have hs : s = initial C := hs
    subst hs
    intro i
    exact ⟨by simp [initial, Child.fresh, CallPc.born], rfl, Semaphore.inv_initial (by omega) (by omega), rfl, rfl, rfl⟩
  | step s a _ he _ ih => exact inv_next ih he.2

/-! ## Safe states -/

/-- **No child that runs has a pointer to a destroyed object**, and no step touches one. -/
structure Safe (tid : Nat → Int) (s : State C) : Prop where
  current : ∀ i, (s.child i).pc.running = true → ∀ j ∈ s.getRunningThread i, (s.obj j).alive = true
  touched : ∀ a, (system C tid).enabled s a → ∀ j ∈ touches s a, (s.obj j).alive = true

/-- No object is destroyed while its child runs. -/
def Late (s : State C) : Act C → Prop
  | .destroy i => (s.child i).pc.running = false
  | _ => True

instance (s : State C) : ∀ a, Decidable (Late s a)
  | .destroy _ => inferInstanceAs (Decidable (_ = _))
  | .construct _ _ _ | .create _ _ | .wait _ _ | .join _ | .joined _ _ | .detach _ | .setCurrent _ | .setName _
    | .setId _ | .setOsName _ | .swap _ | .signal _ _ | .invoke _ | .setRunningThreadName _ _ | .ret _ => isTrue trivial

/-- The child of a destroyed object has returned. -/
def Outlived (s : State C) : Prop := ∀ i, (s.obj i).call = .gone → (s.child i).pc.running = false

/-- The constructor, `Thread::run` and its callback go on while the object is there. -/
theorem alive_of_running (h : Inv s) (ho : Outlived s) (hr : (s.child i).pc.running = true) :
    (s.obj i).alive = true := by
  have hborn : (s.obj i).call.born = true := by
    cases hb : (s.obj i).call.born with
    | true => rfl
    | false =>
      rw [(h i).born.2 hb] at hr
      cases hr
  unfold Thread.alive
  cases hc : (s.obj i).call with
  | fresh | failed =>
    rw [hc] at hborn
    cases hborn
  | gone =>
    rw [ho i hc] at hr
    cases hr
  | create | wait | ready | join | leave => rfl

/-- What a step touches is its own object, which is there. -/
theorem safe_of_outlived (h : Inv s) (ho : Outlived s) : Safe tid s := by
  have hpoints : ∀ i j, j ∈ (s.child i).curThread → j = i := by
    intro i j hj
    have hcur := (h i).current
    rw [hj] at hcur
    split at hcur
    · exact Option.some_inj.1 hcur
    · cases hcur
  have hrun : ∀ i pc, (s.child i).pc = pc → pc.running = true → (s.obj i).alive = true := by
    rintro i pc rfl
    exact alive_of_running h ho
  have hcall : ∀ i call, (s.obj i).call = call → call ≠ .fresh → call ≠ .gone → call ≠ .failed →
      (s.obj i).alive = true := by
    rintro i call rfl hfresh hgone hfailed
    unfold Thread.alive
    split <;> first | rfl | contradiction
  constructor
  · intro i hr j hj
    obtain rfl := hpoints i j hj
    exact hrun j _ rfl hr
  · rintro a ⟨-, hg⟩ j hj
    cases a with
    | create i ok | join i | detach i | destroy i =>
      obtain rfl := Option.some_inj.1 hj
      exact hcall i _ hg (by simp) (by simp) (by simp)
    | wait i a | joined i ok =>
      obtain rfl := Option.some_inj.1 hj
      exact hcall i _ hg.1 (by simp) (by simp) (by simp)
    | setName i | setId i | setOsName i | swap i =>
      obtain rfl := Option.some_inj.1 hj
      exact hrun i _ hg rfl
    | signal i notified =>
      obtain rfl := Option.some_inj.1 hj
      exact hrun i _ hg.1 rfl
    | setRunningThreadName i name =>
      obtain rfl := hpoints i j hj
      exact hrun j _ hg rfl
    | construct i cb name | setCurrent i | invoke i | ret i => cases hj

/-- A child that has returned does not come back. -/
theorem outlived_next (h : Inv s) (ho : Outlived s) {a : Act C} (hg : guard s a) (hl : Late s a) :
    Outlived (next tid s a) := by
  have hset : ∀ i (t : Thread C) (x : Child C), (t.call = .gone → x.pc.running = false) → Outlived (s.set i t x) := by
    intro i t x hx j hj
    rcases eq_or_ne j i with rfl | hne
    · simp only [State.set, Function.update_self] at hj ⊢
      exact hx hj
    · simp only [State.set, Function.update_of_ne hne] at hj ⊢
      exact ho j hj
  have hnot : ∀ i, (s.child i).pc.running = true → (s.obj i).call ≠ .gone := by
    intro i hr hc
    rw [ho i hc] at hr
    cases hr
  cases a with
  | construct i cb name =>
    refine hset i _ _ fun hc => ?_
    cases hc
  | create i ok =>
    simp only [next]
    split
    · refine hset i _ _ fun hc => ?_
      cases hc
    · refine hset i _ _ fun hc => ?_
      cases hc
  | wait i a | join i =>
    refine hset i _ _ fun hc => ?_
    dsimp only at hc
    split at hc <;> cases hc
  | joined i ok | detach i =>
    refine hset i _ _ fun hc => ?_
    cases hc
  | destroy i => exact hset i _ _ fun _ => hl
  | setCurrent i | setName i | setId i | setOsName i | swap i =>
    have hpc : (s.child i).pc = _ := hg
    exact hset i _ _ fun hc => absurd hc (hnot i (by rw [hpc]; rfl))
  | signal i notified => exact hset i _ _ fun hc => absurd hc (hnot i (by rw [hg.1]; rfl))
  | invoke i =>
    have hpc : (s.child i).pc = .call := hg
    simp only [next]
    split
    · exact ho
    · exact hset i _ _ fun hc => absurd hc (hnot i (by rw [hpc]; rfl))
  | setRunningThreadName i name =>
    have hpc : (s.child i).pc = .body := hg
    have hcur : (s.child i).curThread = some i := by
      rw [(h i).current, hpc]
      rfl
    simp only [next, hcur]
    exact hset i _ _ fun hc => absurd hc (hnot i (by rw [hpc]; rfl))
  | ret i => exact hset i _ _ fun _ => rfl

theorem outlived_reach (h : (system C tid).Reach Late s) : Outlived s := by
  induction h using System.Reach.induct with
  | start s hs =>
    have hs : s = initial C := hs
    subst hs
    intro i hc
    cases hc
  | step s a hr he hl ih => exact outlived_next (inv_reach hr) ih he.2 hl

/-- The destructor of an object whose child runs leaves that child's `cur_thread` behind. -/
theorem late_of_safe (h : Inv s) {a : Act C} (hg : guard s a) (hs : Safe tid (next tid s a)) : Late s a := by
  cases a with
  | destroy i =>
    have hcall : (s.obj i).call = .leave := hg
    have hsig := (h i).signalled (by rw [hcall]; rfl)
    show (s.child i).pc.running = false
    cases hr : (s.child i).pc.running with
    | false => rfl
    | true =>
      have hcur : (s.child i).curThread = some i := by
        rw [(h i).current]
        cases hpc : (s.child i).pc <;> rw [hpc] at hsig hr <;> first | rfl | cases hsig
      have halive := hs.current i (by simpa [next] using hr) i (by simpa [next, State.getRunningThread] using hcur)
      simp [next, Thread.alive] at halive
  | _ => trivial

/-- **The current thread.** Every state of a run is safe exactly if no object is destroyed in it while its child runs:
its `cur_thread` is then null or refers to an object that is there, and `setRunningThreadName` writes into such an
object. -/
theorem current_kept {s₀ t : State C} {as : List (Act C)} (h₀ : (system C tid).init s₀)
    (h : (system C tid).Steps Always s₀ as t) :
    (∀ bs cs u, as = bs ++ cs → (system C tid).Steps Always s₀ bs u → Safe tid u) ↔
      (system C tid).Steps Late s₀ as t := by
  refine h.stays_iff (fun u hu => safe_of_outlived (inv_reach hu) (outlived_reach hu)) ?_ h₀
  exact fun u a hu he hs => late_of_safe (inv_reach hu) he.2 hs

instance (s : State C) (a : Act C) : Decidable (guard s a) := by
  cases a <;> dsimp only [guard] <;> infer_instance

instance (s : State C) (a : Act C) : Decidable ((system C tid).enabled s a) :=
  inferInstanceAs (Decidable (_ ∧ guard s a))

/-- A `Thread` is constructed, and its child comes to its callback. -/
def startRun (i : Nat) : List (Act Nat) :=
  [.construct i (some 3) [119], .create i true, .setCurrent i, .setName i, .setId i, .setOsName i, .swap i,
    .signal i none, .wait i (.wait .parent), .invoke i]

/-- The object is joined and destroyed behind a callback that has set its thread's name. -/
def joinRun (i : Nat) : List (Act Nat) :=
  startRun i ++ [.join i, .setRunningThreadName i [104], .ret i, .joined i true, .detach i, .destroy i]

theorem current_kept_join : ∃ t : State Nat,
    (system Nat Int.ofNat).Steps Late (initial Nat) (joinRun 0) t ∧ (t.obj 0).call = .gone ∧ Safe Int.ofNat t := by
  have h : (System.exec (system Nat Int.ofNat) Late (initial Nat) (joinRun 0)).any
      (fun s => (s.obj 0).call == .gone) = true := by
    decide
  obtain ⟨t, hsteps, hgone⟩ := System.exists_exec h
  have hruns := hsteps.mono fun _ _ _ => trivial
  exact ⟨t, hsteps, beq_iff_eq.1 hgone, (current_kept rfl hruns).2 hsteps _ [] t (List.append_nil _).symm hruns⟩

/-- **A detached child goes on with its pointer.** The object is destroyed right behind its constructor, and the
callback writes into it. -/
theorem detached_dangles : ∃ s : State Nat, (system Nat Int.ofNat).Reach Always s ∧ (s.child 0).detached = true ∧
    (system Nat Int.ofNat).enabled s (.setRunningThreadName 0 [104]) ∧
    touches s (.setRunningThreadName 0 [104]) = some 0 ∧ (s.obj 0).alive = false ∧ ¬ Safe Int.ofNat s := by
  have h : (System.exec (system Nat Int.ofNat) Always (initial Nat)
      (startRun 0 ++ [.detach 0, .destroy 0])).isSome = true := by
    decide
  have hgone : ∀ s : State Nat, (s.child 0).pc.running = true → s.getRunningThread 0 = some 0 →
      (s.obj 0).alive = false → ¬ Safe Int.ofNat s := by
    intro s hr hcur halive hsafe
    have halive' := hsafe.current 0 hr 0 hcur
    rw [halive] at halive'
    cases halive'
  exact ⟨_, System.reach_exec rfl h, rfl, ⟨rfl, rfl⟩, rfl, rfl, hgone _ rfl rfl rfl⟩

end Sylar.Current
