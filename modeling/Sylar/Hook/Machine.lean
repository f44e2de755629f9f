import Mathlib.Logic.Function.Basic
import Mathlib.Tactic.SplitIfs
import Sylar.Lib.Transition

/-!
# Hooked I/O on one descriptor

`do_io` and the hooked `close` (`hook.cpp`) on one number `fd`. Any number of fibers are each in one call of `do_io`,
another fiber closes `fd`, and every access to what they share is a step of its own. What is not part of the program is
the environment's choice: what the original function returns, whether `addEvent` succeeds, when an event is ready, when
a timer expires, and when the kernel hands out the number again.

`IOManager` is assumed to do what it says: `addEvent` registers the running fiber, a ready event and `cancelEvent`
remove the registrations of that event and queue their fibers, `cancelAll` does so with all of them; a condition timer's
callback runs once, `cancel()` removes a timer that has not expired.
-/

namespace Sylar.Hook

open Trans

/-- The values of `errno` that the code looks at or sets. -/
inductive Errno where
  | eintr
  | eagain
  | ebadf
  | etimedout
  | other (code : Nat)
deriving DecidableEq, Repr

/-- What a call leaves: its result and `errno`. -/
structure Ret where
  n : Int
  errno : Errno
deriving DecidableEq, Repr

/-- `n == -1 && errno == e`. -/
def Ret.failed (r : Ret) (e : Errno) : Bool := r.n == -1 && r.errno == e

/-- `IOManager::Event`. -/
inductive Event where
  | read
  | write
deriving DecidableEq, Repr

/-- `SO_RCVTIMEO` and `SO_SNDTIMEO`. -/
inductive TimeoutSo where
  | rcv
  | snd
deriving DecidableEq, Repr

/-- What `do_io` reads of an `FdCtx`. A timeout of `(uint64_t)-1` is `none`. -/
structure FdCtx where
  isSocket : Bool
  userNonblock : Bool
  rcvTimeout : Option Nat
  sndTimeout : Option Nat
deriving DecidableEq, Repr

def FdCtx.getTimeout (ctx : FdCtx) : TimeoutSo → Option Nat
  | .rcv => ctx.rcvTimeout
  | .snd => ctx.sndTimeout

/-- What a hooked function passes to `do_io`. -/
structure IoFun where
  event : Event
  timeoutSo : TimeoutSo
deriving DecidableEq, Repr

/-- `accept` and the functions that read. -/
def IoFun.reads : IoFun := ⟨.read, .rcv⟩

/-- The functions that write. -/
def IoFun.writes : IoFun := ⟨.write, .snd⟩

/-- The positions of `do_io`. -/
inductive IoPc where
  | entry
  | lookup
  | closed
  | kind
  /-- `return fun(fd, ..)`, for what is not the hooks' business. -/
  | pass
  | timeout
  /-- `retry:`, and the loop over `EINTR`. -/
  | call
  | arm
  | register
  | refused (errno : Errno)
  /-- Registered, before the switch of `yield()`. -/
  | park
  | waiting
  /-- Before `timer->cancel()`. -/
  | resumed
  | test
  | done (r : Ret)
deriving DecidableEq, Repr

/-- A call of `do_io` with its locals. `cancelled` is `tinfo->cancelled`, where `0` is `none`; `timer` says that its
timer is in the timer set, and `expired` counts its timers that were taken out and whose callbacks have not run. -/
structure IoCall where
  pc : IoPc
  ctx : Option FdCtx
  timeout : Option Nat
  cancelled : Option Errno
  timer : Bool
  expired : Nat
deriving DecidableEq, Repr

/-- The positions of `close`. -/
inductive ClosePc where
  | entry
  | get
  | cancelAll
  | del
  | closeF
  | done
deriving DecidableEq, Repr

/-- The calls of the fibers `I`, and what they share. `ctx` is what `FdMgr` has for the number, `socket` the socket that
the kernel has for it, of the `sockets` so far. -/
structure State (I : Type) where
  io : I → IoCall
  close : ClosePc
  ctx : Option FdCtx
  socket : Option Nat
  sockets : Nat
  registered : I → Bool
  queued : I → Bool

/-- The steps. A Boolean argument is what the step reads of the thread or of the context: `t_hook_enable`, `isClosed()`,
whether there is an `IOManager`. The result of `addEvent` is `none` for `0`, else the `errno` it leaves. -/
inductive Act (I : Type) where
  | enter (i : I) (hook : Bool)
  | lookup (i : I)
  | closed (i : I) (isClosed : Bool)
  | kind (i : I)
  | pass (i : I) (r : Ret)
  | timeout (i : I)
  | call (i : I) (r : Ret)
  | arm (i : I)
  | addEvent (i : I) (rt : Option Errno)
  | refused (i : I)
  | yield (i : I)
  | resume (i : I)
  | cancelTimer (i : I)
  | test (i : I)
  | ready (e : Event)
  | expire (i : I)
  | fire (i : I)
  | closeEnter (hook : Bool)
  | closeGet (iom : Bool)
  | cancelAll
  | del
  | closeF
  | reopen
  | manage (ctx : FdCtx)
deriving DecidableEq, Repr

variable {I : Type} [DecidableEq I]

namespace State

@[simp] def setIo (s : State I) (i : I) (x : IoCall) : State I := { s with io := Function.update s.io i x }

@[simp] def goto (s : State I) (i : I) (pc : IoPc) : State I := s.setIo i { s.io i with pc := pc }

/-- The registrations of `p` are removed, and their fibers are queued. -/
@[simp] def trigger (s : State I) (p : I → Bool) : State I :=
  { s with
    registered := fun j => s.registered j && !p j
    queued := fun j => s.queued j || s.registered j && p j }

/-- `do_io` has not returned, so that its `tinfo` lives. -/
def running (s : State I) (i : I) : Bool :=
  match (s.io i).pc with
  | .done _ => false
  | _ => true

end State

/-- Nobody has done anything with the socket `0` behind the number. -/
def initial (I : Type) (ctx : FdCtx) : State I where
  io _ := ⟨.entry, none, none, none, false, 0⟩
  close := .entry
  ctx := some ctx
  socket := some 0
  sockets := 1
  registered _ := false
  queued _ := false

/-- Where a step is possible. -/
def guard (s : State I) : Act I → Prop
  | .enter i _ => (s.io i).pc = .entry
  | .lookup i => (s.io i).pc = .lookup
  | .closed i _ => (s.io i).pc = .closed
  | .kind i => (s.io i).pc = .kind
  | .pass i _ => (s.io i).pc = .pass
  | .timeout i => (s.io i).pc = .timeout
  | .call i _ => (s.io i).pc = .call
  | .arm i => (s.io i).pc = .arm
  | .addEvent i _ => (s.io i).pc = .register
  | .refused i => ∃ e, (s.io i).pc = .refused e
  | .yield i => (s.io i).pc = .park
  | .resume i => (s.io i).pc = .waiting ∧ s.queued i = true
  | .cancelTimer i => (s.io i).pc = .resumed
  | .test i => (s.io i).pc = .test
  | .ready _ => True
  | .expire i => (s.io i).timer = true
  | .fire i => 0 < (s.io i).expired
  | .closeEnter _ => s.close = .entry
  | .closeGet _ => s.close = .get
  | .cancelAll => s.close = .cancelAll
  | .del => s.close = .del
  | .closeF => s.close = .closeF
  | .reopen => s.socket = none
  | .manage _ => s.socket ≠ none ∧ s.ctx = none

/-- What a step does. -/
def next (fn : I → IoFun) (s : State I) : Act I → State I
  | .enter i hook => s.goto i (if hook then .lookup else .pass)
  | .lookup i =>
    match s.ctx with
    | none => s.goto i .pass
    | some ctx => s.setIo i { s.io i with pc := .closed, ctx := some ctx }
  | .closed i isClosed => s.goto i (if isClosed then .done ⟨-1, .ebadf⟩ else .kind)
  | .kind i =>
    match (s.io i).ctx with
    | none => s
    | some ctx => s.goto i (if !ctx.isSocket || ctx.userNonblock then .pass else .timeout)
  | .pass i r => s.goto i (.done r)
  | .timeout i =>
    s.setIo i { s.io i with
      pc := .call, timeout := (s.io i).ctx.bind fun ctx => ctx.getTimeout (fn i).timeoutSo, cancelled := none }
  | .call i r =>
    s.goto i (if r.failed .eintr then .call else if r.failed .eagain then .arm else .done r)
  | .arm i => s.setIo i { s.io i with pc := .register, timer := (s.io i).timeout.isSome }
  | .addEvent i rt =>
    match rt with
    | none => { s.goto i .park with registered := Function.update s.registered i true }
    | some e => s.goto i (.refused e)
  | .refused i =>
    match (s.io i).pc with
    | .refused e => s.setIo i { s.io i with pc := .done ⟨-1, e⟩, timer := false }
    | _ => s
  | .yield i => s.goto i .waiting
  | .resume i => { s.goto i .resumed with queued := Function.update s.queued i false }
  | .cancelTimer i => s.setIo i { s.io i with pc := .test, timer := false }
  | .test i => s.goto i (if (s.io i).cancelled = some .etimedout then .done ⟨-1, .etimedout⟩ else .call)
  | .ready e => s.trigger fun j => (fn j).event == e
  | .expire i => s.setIo i { s.io i with timer := false, expired := (s.io i).expired + 1 }
  | .fire i =>
    let x := { s.io i with expired := (s.io i).expired - 1 }
    if s.running i = false ∨ x.cancelled ≠ none then s.setIo i x
    else (s.setIo i { x with cancelled := some .etimedout }).trigger fun j => (fn j).event == (fn i).event
  | .closeEnter hook => { s with close := if hook then .get else .closeF }
  | .closeGet iom => { s with close := if s.ctx = none then .closeF else if iom then .cancelAll else .del }
  | .cancelAll => { s.trigger fun _ => true with close := .del }
  | .del => { s with close := .closeF, ctx := none }
  | .closeF => { s with close := .done, socket := none }
  | .reopen => { s with socket := some s.sockets, sockets := s.sockets + 1 }
  | .manage ctx => { s with ctx := some ctx }

instance (s : State I) (a : Act I) : Decidable (guard s a) := by
  cases a with
  | refused i =>
    refine decidable_of_iff ((match (s.io i).pc with | .refused _ => true | _ => false) = true) ?_
    dsimp only [guard]
    cases (s.io i).pc <;> simp
  | _ => dsimp only [guard]; infer_instance

/-- **Hooked I/O** on a socket that is managed and, to the user, blocking. -/
def system (fn : I → IoFun) : System (State I) (Act I) where
  init s := ∃ ctx : FdCtx, ctx.isSocket = true ∧ ctx.userNonblock = false ∧ s = initial I ctx
  enabled s a := guard s a
  next := next fn

instance (fn : I → IoFun) (s : State I) (a : Act I) : Decidable ((system fn).enabled s a) :=
  inferInstanceAs (Decidable (guard s a))

end Sylar.Hook
