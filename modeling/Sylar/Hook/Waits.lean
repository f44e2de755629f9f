import Sylar.Hook.World

/-!
# Waits

What `do_io` and `connect_with_timeout` wait with: condition timers, registrations of events, and `yield()`. The
environment of a call is a script: what the original function returns from call to call, what `addEvent` answers, and
how each wait ends. Nothing else happens to the descriptor during the call, and time, in nanoseconds, passes in its
waits.

- `State.Ends`, `State.wake`: a wait ends by the event, which removes the registration, or by the callback of the
  timer, which sets `cancelled` and cancels the event;
- `waitMonitor`: the order in which timers are armed and disarmed and events registered;
- `nothing_left`: neither function leaves a timer or a registration behind, or ever has two of them.
-/

namespace Sylar.Waits

open Trans Hook Calls

/-- How a wait ends: by the event, so many nanoseconds after its begin, or by the callback of the timer. -/
inductive End where
  | event (after : Nat)
  | timer
deriving DecidableEq, Repr

/-- What the environment does: the outcomes of the original function, the answers of `addEvent` (`none` for `0`), the
ends of the waits, and what `getsockopt_f(.., SO_ERROR, ..)` says. -/
structure Script where
  outcome : Nat → Ret
  addEvent : Nat → Option Errno
  wake : Nat → End
  soError : Ret × Option Errno

/-- A condition timer. It is armed until it fires or is cancelled. -/
structure Timer where
  fd : Int
  event : Hook.Event
  deadline : Nat
  armed : Bool
deriving DecidableEq, Repr

/-- Nanoseconds of `ms` milliseconds. -/
def nanos (ms : Nat) : Nat := ms * 1000000

/-- A call in progress: how many answers of the script it has had, its timers and registrations, the latest first,
`tinfo->cancelled`, and for how long it has been suspended. -/
structure State where
  calls : Nat
  adds : Nat
  waits : Nat
  timers : List Timer
  registered : List (Int × Hook.Event)
  cancelled : Option Errno
  suspended : Nat
deriving DecidableEq, Repr

namespace State

/-- At the begin of a call. -/
def start : State := ⟨0, 0, 0, [], [], none, 0⟩

/-- The timers that have neither fired nor been cancelled. -/
def armed (s : State) : List Timer := s.timers.filter (·.armed)

/-- `timer->cancel()`. -/
def disarm (s : State) : State :=
  match s.timers with
  | [] => s
  | t :: ts => { s with timers := { t with armed := false } :: ts }

/-- Whether the wait can end like this. No timer fires later than at its deadline, and the callback does nothing where
`cancelled` is set. -/
def Ends (s : State) : End → Prop
  | .event after => s.registered ≠ [] ∧ ∀ t ∈ s.armed, s.suspended + after ≤ t.deadline
  | .timer => s.cancelled = none ∧
      ∃ t ∈ s.timers.head?, t.armed = true ∧ (t.fd, t.event) ∈ s.registered ∧ ∀ t' ∈ s.armed, t.deadline ≤ t'.deadline

/-- The end of a wait. -/
def wake (s : State) : End → State
  | .event after =>
    { s with waits := s.waits + 1, registered := s.registered.tail, suspended := s.suspended + after }
  | .timer =>
    match s.timers with
    | [] => s
    | t :: _ =>
      { s.disarm with
        waits := s.waits + 1
        registered := s.registered.erase (t.fd, t.event)
        cancelled := some .etimedout
        suspended := t.deadline }

end State

/-- What an operation can answer. The contexts are those of `w` throughout. -/
def allowed (w : World) (sc : Script) (s : State) : (o : Op) → o.Reply → Prop
  | .orig _, r => r = sc.outcome s.calls
  | .soError _, r => r = sc.soError
  | .addEvent _ _, rt => rt = sc.addEvent s.adds
  | .yield, _ => s.Ends (sc.wake s.waits)
  | .cancelled, x => x = s.cancelled
  | .unrolled, _ => True
  | o, r => Calls.allowed w o r

/-- What an operation does. -/
def next (sc : Script) (s : State) : (o : Op) → o.Reply → State
  | .orig _, _ => { s with calls := s.calls + 1 }
  | .addConditionTimer ms fd event, _ => { s with timers := ⟨fd, event, s.suspended + nanos ms, true⟩ :: s.timers }
  | .cancelTimer, _ => s.disarm
  | .addEvent fd event, rt =>
    { s with adds := s.adds + 1, registered := if rt = none then (fd, event) :: s.registered else s.registered }
  | .yield, _ => s.wake (sc.wake s.waits)
  | _, _ => s

/-- **The meaning of the operations** during one call. A call that does more rounds than its loops are unrolled ends
with `Op.unrolled`. -/
def sem (w : World) (sc : Script) : Sem Op Op.Reply State where
  allowed := allowed w sc
  next := next sc

/-- The events of a call. -/
abbrev Events := List (Event Op Op.Reply State)

/-- The call has returned: its loops were unrolled far enough. -/
def Returned (es : Events) : Prop := ∀ e ∈ es, e.op ≠ .unrolled

/-! ## Timers and registrations -/

/-- At most one timer is armed and at most one event registered at a time, and none at the end. -/
structure Tidy (es : Events) (t : State) : Prop where
  timers : ∀ e ∈ es, e.before.armed.length ≤ 1
  registered : ∀ e ∈ es, e.before.registered.length ≤ 1
  disarmed : t.armed = []
  deregistered : t.registered = []

/-- Whether a timer may be armed, and an event registered. -/
structure Held where
  timer : Bool
  event : Bool
deriving DecidableEq, Repr

/-- A timer is armed and an event registered only where there is none. -/
def waitMonitor : Monitor Op Op.Reply Held where
  ok g o :=
    match o with
    | .addConditionTimer _ _ _ => g.timer = false
    | .addEvent _ _ => g.event = false
    | _ => True
  next g o r :=
    match o, r with
    | .addConditionTimer _ _ _, _ => { g with timer := true }
    | .cancelTimer, _ => { g with timer := false }
    | .addEvent _ _, rt => { g with event := rt.isNone }
    | .yield, _ => { g with event := false }
    | _, _ => g

/-- What the monitor knows of a state. -/
structure Holds (g : Held) (s : State) : Prop where
  older : ∀ t ∈ s.timers.tail, t.armed = false
  timer : g.timer = false → ∀ t ∈ s.timers, t.armed = false
  event : s.registered.length ≤ g.event.toNat

variable {w : World} {sc : Script} {g : Held} {s t : State} {es : Events} {r : Ret}

theorem Holds.length_le (h : Holds g s) : s.registered.length ≤ 1 :=
  Nat.le_trans h.event (Bool.toNat_le _)

theorem Holds.armed_le (h : Holds g s) : s.armed.length ≤ 1 := by
  unfold State.armed
  cases hts : s.timers with
  | nil => simp
  | cons t ts =>
    have hold : ∀ t ∈ ts, t.armed = false := by simpa [hts] using h.older
    have hnil : ts.filter (·.armed) = [] := by simpa using hold
    rw [List.filter_cons, hnil]
    split <;> simp

theorem Holds.armed_eq (h : Holds g s) (hg : g.timer = false) : s.armed = [] := by
  simpa [State.armed] using h.timer hg

/-- Behind `timer->cancel()` no timer is armed. -/
theorem Holds.disarm (h : Holds g s) : Holds { g with timer := false } s.disarm := by
  unfold State.disarm
  cases hts : s.timers with
  | nil => exact ⟨h.older, fun _ => by simp [hts], h.event⟩
  | cons t ts =>
    have hold : ∀ t ∈ ts, t.armed = false := by simpa [hts] using h.older
    exact ⟨hold, fun _ => by simpa using hold, h.event⟩

/-- Behind a wait no event is registered. -/
theorem Holds.wake (h : Holds g s) {x : End} (hx : s.Ends x) : Holds { g with event := false } (s.wake x) := by
  have hone := h.length_le
  cases x with
  | event after =>
    refine ⟨h.older, h.timer, ?_⟩
    simp only [State.wake, List.length_tail, Bool.toNat_false]
    omega
  | timer =>
    obtain ⟨-, t, ht, -, hmem, -⟩ := hx
    obtain ⟨ts, hts⟩ : ∃ ts, s.timers = t :: ts := by
      cases hl : s.timers with
      | nil => simp [hl] at ht
      | cons t' ts =>
        rw [hl] at ht
        cases ht
        exact ⟨ts, rfl⟩
    have hdis := h.disarm
    simp only [State.wake, hts]
    refine ⟨hdis.older, fun _ => hdis.timer rfl, ?_⟩
    have hlen := List.length_erase_of_mem hmem
    simp only [Bool.toNat_false]
    omega

/-- **Every operation that the monitor admits** keeps what it knows. -/
theorem holds_next {o : Op} {a : o.Reply} (ho : waitMonitor.ok g o) (h : Holds g s) (ha : (sem w sc).allowed s o a) :
    Holds (waitMonitor.next g o a) ((sem w sc).next s o a) := by
  cases o with
  | addConditionTimer ms fd event =>
    have hoff := h.timer ho
    exact ⟨hoff, fun hn => (Bool.noConfusion hn), h.event⟩
  | addEvent fd event =>
    have hnil : s.registered = [] := by
      have hev := h.event
      rw [show g.event = false from ho] at hev
      exact List.length_eq_zero_iff.mp (Nat.le_zero.mp hev)
    refine ⟨h.older, h.timer, ?_⟩
    cases (a : Option Errno) <;> simp [sem, next, waitMonitor, hnil]
  | cancelTimer => exact h.disarm
  | yield => exact h.wake ha
  | orig c => exact ⟨h.older, h.timer, h.event⟩
  | _ => exact h

/-! ## The two functions -/

/-- Nothing is held. -/
def Held.nothing : Held := ⟨false, false⟩

/-- A function that waits. -/
abbrev Lets (g : Held) {α : Type} (p : Hooked α) : Prop := Obeys waitMonitor (fun g _ => g = .nothing) g p

theorem lets_arm (timeout : Option Nat) (fd : Int) (event : Hook.Event) :
    Obeys waitMonitor (fun g _ => g = ⟨timeout.isSome, false⟩) .nothing (arm timeout fd event) := by
  cases timeout with
  | none => rfl
  | some ms => exact ⟨rfl, fun _ => rfl⟩

/-- `timer->cancel()`, and what comes behind it. -/
theorem lets_disarm (timeout : Option Nat) {α : Type} {p : Hooked α} (hp : Lets .nothing p) :
    Lets ⟨timeout.isSome, false⟩ (disarm timeout >>= fun _ => p) := by
  cases timeout with
  | none => exact hp
  | some ms => exact ⟨trivial, fun _ => hp⟩

/-- A timer is armed and `addEvent` called; what comes behind that has both, or the timer alone. -/
theorem lets_wait {timeout : Option Nat} {fd : Int} {event : Hook.Event} {α : Type} {k : Option Errno → Hooked α}
    (hrefused : ∀ e, Lets ⟨timeout.isSome, false⟩ (k (some e))) (hadded : Lets ⟨timeout.isSome, true⟩ (k none)) :
    Lets .nothing (arm timeout fd event >>= fun _ => addEvent fd event >>= k) := by
  refine Obeys.bind (fun g _ hg => ?_) (lets_arm timeout fd event)
  subst hg
  simp only [Prog.call_bind, obeys_op]
  refine ⟨rfl, fun rt => ?_⟩
  cases rt with
  | some e => exact hrefused e
  | none => exact hadded

/-- The wait itself. -/
theorem lets_yield {timeout : Option Nat} {α : Type} {p : Hooked α} (hp : Lets .nothing p) :
    Lets ⟨timeout.isSome, true⟩ (yield >>= fun _ => disarm timeout >>= fun _ => p) :=
  ⟨trivial, fun _ => lets_disarm timeout hp⟩

theorem lets_retry (fd : Int) (fn : Int → Call) (io : IoFun) (timeout : Option Nat) :
    ∀ fuel, Lets .nothing (retry fd fn io timeout fuel)
  | 0 => ⟨trivial, fun _ => rfl⟩
  | fuel + 1 => by
    have ih := lets_retry fd fn io timeout fuel
    refine ⟨trivial, fun n => ?_⟩
    dsimp only [Prog.bind]
    split
    · exact ih
    split
    · refine lets_wait (fun e => lets_disarm timeout rfl) (lets_yield ⟨trivial, fun x => ?_⟩)
      dsimp only [Prog.bind]
      split
      · exact rfl
      · exact ih
    · exact rfl

/-- Looking at the context needs neither. -/
theorem waitMonitor_looks {o : Op} (hg : g = .nothing) (ho : LookOp o) :
    waitMonitor.ok g o ∧ ∀ r, waitMonitor.next g o r = .nothing := by
  subst hg
  cases o <;> first | exact ⟨trivial, fun _ => rfl⟩ | exact ho.elim

theorem lets_doIo (hook : Bool) (fuel : Nat) (fd : Int) (fn : Int → Call) (io : IoFun) :
    Lets .nothing (doIo hook fuel fd fn io) := by
  refine obeys_looks (K := (· = .nothing)) (fun _ _ => waitMonitor_looks) (fun _ hg => hg) ?_ ?_ rfl
  · rintro _ rfl
    exact ⟨trivial, fun _ => rfl⟩
  · rintro _ v rfl
    exact lets_retry fd fn io v fuel

theorem lets_connected (fd : Int) : Lets .nothing (connected fd) := by
  refine ⟨trivial, fun a => ?_⟩
  dsimp only [Prog.bind]
  split
  · exact rfl
  · split <;> exact rfl

theorem lets_connect (hook : Bool) (fd : Int) (addr : Ptr) (addrlen : Nat) (timeout : Option Nat) :
    Lets .nothing (connectWithTimeout hook fd addr addrlen timeout) := by
  refine obeys_connects (K := (· = .nothing)) (fun _ _ => waitMonitor_looks) (fun _ hg => hg) ?_ ?_ rfl
  · rintro _ rfl
    exact ⟨trivial, fun _ => rfl⟩
  · rintro _ rfl n
    refine lets_wait (fun e => lets_disarm timeout (lets_connected fd)) (lets_yield ⟨trivial, fun x => ?_⟩)
    cases x with
    | some e => exact rfl
    | none => exact lets_connected fd

/-- What such a function leaves, and has at a time. -/
theorem Lets.tidy {p : Hooked Ret} (hp : Lets .nothing p) (h : Run (sem w sc) .start p es t r) : Tidy es t := by
  have hstart : Holds .nothing .start := ⟨by simp [State.start], by simp [State.start], Nat.le_refl 0⟩
  obtain ⟨⟨g, hg, rfl⟩, hes⟩ := h.keeps (I := Holds) (fun _ _ _ _ ho hs ha => holds_next ho hs ha) hp hstart
  refine ⟨fun e he => ?_, fun e he => ?_, hg.armed_eq rfl, List.length_eq_zero_iff.mp (Nat.le_zero.mp hg.event)⟩
  · obtain ⟨g, hbefore, -⟩ := hes e he
    exact hbefore.armed_le
  · obtain ⟨g, hbefore, -⟩ := hes e he
    exact hbefore.length_le

/-- **A wait leaves nothing behind.** Whatever the original function and `addEvent` answer and however the waits end,
at no time has a call two timers armed or two events registered, and where it returns it has none. -/
theorem nothing_left (w : World) (sc : Script) (hook : Bool) (fd : Int) :
    (∀ fuel fn io es t r, Run (sem w sc) .start (doIo hook fuel fd fn io) es t r → Tidy es t) ∧
      ∀ addr addrlen timeout es t r,
        Run (sem w sc) .start (connectWithTimeout hook fd addr addrlen timeout) es t r → Tidy es t :=
  ⟨fun fuel fn io _ _ _ h => (lets_doIo hook fuel fd fn io).tidy h,
    fun addr addrlen timeout _ _ _ h => (lets_connect hook fd addr addrlen timeout).tidy h⟩

/-- One managed socket with a timeout. -/
def timedSocket (ms : Nat) : World :=
  { World.oneSocket with ctx := fun _ => ⟨⟨true, false, some ms, some ms⟩, false, true⟩ }

/-- A call that waits for its timer. -/
def Script.expiring : Script where
  outcome _ := ⟨-1, .eagain⟩
  addEvent _ := none
  wake _ := .timer
  soError := (⟨0, .other 0⟩, none)

/-- Its run, from `get` to the test of `cancelled`. -/
theorem expiring_run : ∃ es t, Run (sem (timedSocket 1) .expiring) .start (doIo true 1 5 (.read · 0 10) .reads) es t
    ⟨-1, .etimedout⟩ := by
  have hget : (sem (timedSocket 1) .expiring).allowed .start (.get 5 false) (some 0) := rfl
  have hends : (⟨1, 1, 0, [⟨5, .read, nanos 1, true⟩], [(5, .read)], none, 0⟩ : State).Ends .timer :=
    ⟨rfl, _, rfl, rfl, List.mem_cons_self, by decide⟩
  constructor
  constructor
  apply Run.op hget
  apply Run.op (r := false) rfl
  apply Run.op (r := true) rfl
  apply Run.op (r := false) rfl
  apply Run.op (r := some 1) rfl
  apply Run.op (r := ⟨-1, .eagain⟩) rfl
  apply Run.op (r := ()) trivial
  apply Run.op (r := none) rfl
  apply Run.op (r := Errno.eagain) hends
  apply Run.op (r := ()) trivial
  apply Run.op (r := some Errno.etimedout) rfl
  exact .ret _ _

theorem nothing_left_expiring : ∃ es t,
    Run (sem (timedSocket 1) .expiring) .start (doIo true 1 5 (.read · 0 10) .reads) es t ⟨-1, .etimedout⟩ ∧
      Tidy es t := by
  obtain ⟨es, t, h⟩ := expiring_run
  exact ⟨es, t, h, (nothing_left (timedSocket 1) .expiring true 5).1 1 (.read · 0 10) .reads es t _ h⟩

end Sylar.Waits
