import Sylar.Hook.Machine
import Sylar.Lib.Program

/-!
# The hooked functions

`hook.cpp` as programs. A hooked function calls the original functions, `FdMgr` and its contexts, `IOManager` and its
timers, and what each of them answers is not up to it, so each is an operation (`Op`). `hook` is `t_hook_enable` of the
calling thread, and a `Call` is a function with its arguments: what a user calls and what is called of the original
functions are both calls (`hooked`, `Op.orig`).

A caller passes to `fcntl` what the case of its command reads with `va_arg`; it may pass more than that. Where a
function reads what a pointer points to, the call has that value next to the pointer. The loops of `do_io` are unrolled
`fuel` times; what is beyond is `Op.unrolled`, which nothing answers.
-/

namespace Sylar.Calls

open Trans Hook

abbrev Ptr := Nat

/-! ## Arguments -/

structure Timespec where
  sec : Int
  nsec : Int
deriving DecidableEq, Repr

structure Timeval where
  sec : Int
  usec : Int
deriving DecidableEq, Repr

/-- `O_NONBLOCK`. -/
def oNonblock : BitVec 32 := 2048#32

/-- `arg & O_NONBLOCK`, as a truth value. -/
def nonblock (arg : BitVec 32) : Bool := arg &&& oNonblock != 0#32

theorem getLsbD_oNonblock (i : Nat) : oNonblock.getLsbD i = decide (i = 11) := by
  rw [show oNonblock = BitVec.twoPow 32 11 from rfl, BitVec.getLsbD_twoPow]
  by_cases h : i = 11
  · simp [h]
  · simp [h, Ne.symm h]

theorem nonblock_eq (v : BitVec 32) : nonblock v = v.getLsbD 11 := by
  have h : v &&& oNonblock = if v.getLsbD 11 then oNonblock else 0#32 := BitVec.and_twoPow v 11
  unfold nonblock
  rw [h]
  split <;> simp_all [oNonblock]

@[simp] theorem nonblock_set (v : BitVec 32) : nonblock (v ||| oNonblock) = true := by
  simp [nonblock_eq, getLsbD_oNonblock]

@[simp] theorem nonblock_clear (v : BitVec 32) : nonblock (v &&& ~~~oNonblock) = false := by
  simp [nonblock_eq, getLsbD_oNonblock]

/-- `arg |= O_NONBLOCK` changes nothing where the flag is set. -/
theorem set_eq_self {v : BitVec 32} : v ||| oNonblock = v ↔ nonblock v = true := by
  constructor
  · intro h
    rw [← h, nonblock_set]
  · intro h
    rw [nonblock_eq] at h
    refine BitVec.eq_of_getLsbD_eq fun i hi => ?_
    rw [BitVec.getLsbD_or, getLsbD_oNonblock]
    by_cases hi' : i = 11
    · simp [hi', h]
    · simp [hi']

/-- `arg &= ~O_NONBLOCK` changes nothing where the flag is not set. -/
theorem clear_eq_self {v : BitVec 32} : v &&& ~~~oNonblock = v ↔ nonblock v = false := by
  constructor
  · intro h
    rw [← h, nonblock_clear]
  · intro h
    rw [nonblock_eq] at h
    refine BitVec.eq_of_getLsbD_eq fun i hi => ?_
    rw [BitVec.getLsbD_and, BitVec.getLsbD_not, getLsbD_oNonblock]
    by_cases hi' : i = 11
    · rw [hi', h, Bool.false_and]
    · simp [hi', hi]

/-- `EINPROGRESS`. -/
def einprogress : Errno := .other 115

inductive Level where
  | solSocket
  | other (level : Nat)
deriving DecidableEq, Repr

inductive OptName where
  | soError
  | timeo (so : TimeoutSo)
  | other (optname : Nat)
deriving DecidableEq, Repr

inductive Request where
  | fionbio
  | other (request : Nat)
deriving DecidableEq, Repr

/-- The commands whose argument is an `int`. -/
inductive IntCmd where
  | dupfd
  | dupfdCloexec
  | setfd
  | setown
  | setsig
  | setlease
  | notify
  | setpipeSz
deriving DecidableEq, Repr

/-- The commands without an argument, next to `F_GETFL`. -/
inductive PlainCmd where
  | getfd
  | getown
  | getsig
  | getlease
  | getpipeSz
deriving DecidableEq, Repr

/-- The commands whose argument is a `struct flock*`. -/
inductive LockCmd where
  | setlk
  | setlkw
  | getlk
deriving DecidableEq, Repr

/-- The commands whose argument is a pointer to an owner. -/
inductive OwnerCmd where
  | getownEx
  | setownEx
deriving DecidableEq, Repr

/-- A variadic argument. -/
inductive Word where
  | int (v : BitVec 32)
  | ptr (p : Ptr)
deriving DecidableEq, Repr

/-- A command of `fcntl` with what follows it, by the cases of its `switch`. `extra` is an argument that the case does
not read, and `other` is a command that no case names. -/
inductive Fcntl where
  | setfl (arg : BitVec 32)
  | getfl (extra : Option Word)
  | int (cmd : IntCmd) (arg : BitVec 32)
  | plain (cmd : PlainCmd) (extra : Option Word)
  | lock (cmd : LockCmd) (arg : Ptr)
  | owner (cmd : OwnerCmd) (arg : Ptr)
  | other (cmd : Int) (arg : Option Word)
deriving DecidableEq, Repr

/-- The functions of `HOOK_FUN` with their arguments. `value` is the `int` that `arg` points to, `tv` the `timeval` that
`optval` points to. -/
inductive Call where
  | sleep (seconds : BitVec 32)
  | usleep (usec : BitVec 32)
  | nanosleep (req : Timespec) (rem : Ptr)
  | socket (domain type protocol : Int)
  | connect (fd : Int) (addr : Ptr) (addrlen : Nat)
  | accept (fd : Int) (addr addrlen : Ptr)
  | read (fd : Int) (buf : Ptr) (count : Nat)
  | readv (fd : Int) (iov : Ptr) (iovcnt : Int)
  | recv (fd : Int) (buf : Ptr) (len : Nat) (flags : Int)
  | recvfrom (fd : Int) (buf : Ptr) (len : Nat) (flags : Int) (srcAddr addrlen : Ptr)
  | recvmsg (fd : Int) (msg : Ptr) (flags : Int)
  | write (fd : Int) (buf : Ptr) (count : Nat)
  | writev (fd : Int) (iov : Ptr) (iovcnt : Int)
  | send (fd : Int) (buf : Ptr) (len : Nat) (flags : Int)
  | sendto (fd : Int) (buf : Ptr) (len : Nat) (flags : Int) (destAddr : Ptr) (addrlen : Nat)
  | sendmsg (fd : Int) (msg : Ptr) (flags : Int)
  | close (fd : Int)
  | fcntl (fd : Int) (cmd : Fcntl)
  | ioctl (fd : Int) (request : Request) (arg : Ptr) (value : BitVec 32)
  | getsockopt (fd : Int) (level : Level) (optname : OptName) (optval optlen : Ptr)
  | setsockopt (fd : Int) (level : Level) (optname : OptName) (optval : Ptr) (tv : Timeval) (optlen : Nat)
deriving DecidableEq, Repr

/-! ## Operations -/

/-- What the hooked functions call. A context of `FdMgr` is a number. -/
inductive Op where
  /-- An original function. -/
  | orig (c : Call)
  /-- `getsockopt_f(fd, SOL_SOCKET, SO_ERROR, &error, &len)`. -/
  | soError (fd : Int)
  | get (fd : Int) (autoCreate : Bool)
  | isClosed (ctx : Nat)
  | isSocket (ctx : Nat)
  | getUserNonblock (ctx : Nat)
  | setUserNonblock (ctx : Nat) (v : Bool)
  | getSysNonblock (ctx : Nat)
  | getTimeout (ctx : Nat) (so : TimeoutSo)
  | setTimeout (ctx : Nat) (so : TimeoutSo) (v : Option Nat)
  | del (fd : Int)
  /-- Whether `IOManager::GetThis()` is there. -/
  | getIom
  | cancelAll (fd : Int)
  /-- `addTimer(ms, ..)`, whose callback schedules the running fiber. -/
  | addTimer (ms : Nat)
  /-- `addConditionTimer(ms, .., winfo)`, whose callback sets `cancelled` and cancels the event. -/
  | addConditionTimer (ms : Nat) (fd : Int) (event : Event)
  | addEvent (fd : Int) (event : Event)
  | cancelTimer
  | yield
  /-- `tinfo->cancelled`. -/
  | cancelled
  | unrolled
deriving DecidableEq, Repr

/-- What an operation answers. `addEvent` answers `none` for `0`, else the `errno` that it leaves; `yield` answers the
`errno` of the thread that goes on with the fiber; an error of `0` is `none`. -/
abbrev Op.Reply : Op → Type
  | .orig _ => Ret
  | .soError _ => Ret × Option Errno
  | .get _ _ | .getTimeout _ _ => Option Nat
  | .isClosed _ | .isSocket _ | .getUserNonblock _ | .getSysNonblock _ | .getIom => Bool
  | .addEvent _ _ | .cancelled => Option Errno
  | .yield => Errno
  | _ => Unit

abbrev Hooked := Prog Op Op.Reply

abbrev op (o : Op) : Hooked o.Reply := Prog.call o

abbrev orig (c : Call) : Hooked Ret := op (.orig c)
abbrev soError (fd : Int) : Hooked (Ret × Option Errno) := op (.soError fd)
abbrev get (fd : Int) (autoCreate : Bool) : Hooked (Option Nat) := op (.get fd autoCreate)
abbrev isClosed (ctx : Nat) : Hooked Bool := op (.isClosed ctx)
abbrev isSocket (ctx : Nat) : Hooked Bool := op (.isSocket ctx)
abbrev getUserNonblock (ctx : Nat) : Hooked Bool := op (.getUserNonblock ctx)
abbrev setUserNonblock (ctx : Nat) (v : Bool) : Hooked Unit := op (.setUserNonblock ctx v)
abbrev getSysNonblock (ctx : Nat) : Hooked Bool := op (.getSysNonblock ctx)
abbrev getTimeout (ctx : Nat) (so : TimeoutSo) : Hooked (Option Nat) := op (.getTimeout ctx so)
abbrev setTimeout (ctx : Nat) (so : TimeoutSo) (v : Option Nat) : Hooked Unit := op (.setTimeout ctx so v)
abbrev del (fd : Int) : Hooked Unit := op (.del fd)
abbrev getIom : Hooked Bool := op .getIom
abbrev cancelAll (fd : Int) : Hooked Unit := op (.cancelAll fd)
abbrev addTimer (ms : Nat) : Hooked Unit := op (.addTimer ms)
abbrev addConditionTimer (ms : Nat) (fd : Int) (event : Event) : Hooked Unit :=
  op (.addConditionTimer ms fd event)
abbrev addEvent (fd : Int) (event : Event) : Hooked (Option Errno) := op (.addEvent fd event)
abbrev cancelTimer : Hooked Unit := op .cancelTimer
abbrev yield : Hooked Errno := op .yield
abbrev cancelled : Hooked (Option Errno) := op .cancelled
abbrev unrolled : Hooked Unit := op .unrolled

/-! ## The read and write family -/

/-- The condition timer, if a timeout has been set. -/
def arm (timeout : Option Nat) (fd : Int) (event : Event) : Hooked Unit :=
  match timeout with
  | some ms => addConditionTimer ms fd event
  | none => pure ()

/-- `if (timer) timer->cancel()`. -/
def disarm (timeout : Option Nat) : Hooked Unit :=
  match timeout with
  | some _ => cancelTimer
  | none => pure ()

/-- `do_io` from `retry:` on. -/
def retry (fd : Int) (fn : Int → Call) (io : IoFun) (timeout : Option Nat) : Nat → Hooked Ret
  | 0 => do
    unrolled
    pure ⟨-1, .eagain⟩
  | fuel + 1 => do
    let n ← orig (fn fd)
    if n.failed .eintr then retry fd fn io timeout fuel
    else if n.failed .eagain then
      arm timeout fd io.event
      match ← addEvent fd io.event with
      | some e =>
        disarm timeout
        pure ⟨-1, e⟩
      | none =>
        let _ ← yield
        disarm timeout
        if (← cancelled) = some .etimedout then pure ⟨-1, .etimedout⟩
        else retry fd fn io timeout fuel
    else pure n

def doIo (hook : Bool) (fuel : Nat) (fd : Int) (fn : Int → Call) (io : IoFun) : Hooked Ret :=
  if !hook then orig (fn fd)
  else do
    match ← get fd false with
    | none => orig (fn fd)
    | some ctx =>
      if ← isClosed ctx then pure ⟨-1, .ebadf⟩
      else if !(← isSocket ctx) then orig (fn fd)
      else if ← getUserNonblock ctx then orig (fn fd)
      else retry fd fn io (← getTimeout ctx io.timeoutSo) fuel

/-- The operations of a `do_io` whose original call is `c`. -/
def IoOp (c : Call) : Op → Prop
  | .orig c' => c' = c
  | .get _ autoCreate => autoCreate = false
  | .isClosed _ | .isSocket _ | .getUserNonblock _ | .getTimeout _ _ => True
  | .addConditionTimer _ _ _ | .addEvent _ _ | .cancelTimer | .yield | .cancelled | .unrolled => True
  | _ => False

/-- The operations with which a call looks at its context. -/
def LookOp : Op → Prop
  | .get _ autoCreate => autoCreate = false
  | .isClosed _ | .isSocket _ | .getUserNonblock _ | .getTimeout _ _ => True
  | _ => False

theorem LookOp.ioOp {o : Op} {c : Call} (ho : LookOp o) : IoOp c o := by
  cases o <;> first | exact ho | exact ho.elim

section

variable {G : Type} {m : Monitor Op Op.Reply G} {L : G → Ret → Prop} {fd : Int} {fn : Int → Call} {io : IoFun}

theorem obeys_arm {timeout : Option Nat} {event : Hook.Event} {c : Call} (hok : ∀ g o, IoOp c o → m.ok g o) (g : G) :
    Obeys m (fun _ _ => True) g (arm timeout fd event) := by
  cases timeout with
  | none => trivial
  | some ms => exact ⟨hok _ _ trivial, fun _ => trivial⟩

theorem obeys_disarm {timeout : Option Nat} {c : Call} (hok : ∀ g o, IoOp c o → m.ok g o) (g : G) :
    Obeys m (fun _ _ => True) g (disarm timeout) := by
  cases timeout with
  | none => trivial
  | some ms => exact ⟨hok _ _ trivial, fun _ => trivial⟩

theorem obeys_retry {timeout : Option Nat} (hok : ∀ g o, IoOp (fn fd) o → m.ok g o) (hfail : ∀ g e, L g ⟨-1, e⟩)
    (horig : ∀ g n, L (m.next g (.orig (fn fd)) n) n) : ∀ fuel g, Obeys m L g (retry fd fn io timeout fuel)
  | 0, g => ⟨hok _ _ trivial, fun _ => hfail _ _⟩
  | fuel + 1, g => by
    have ih : ∀ g, Obeys m L g (retry fd fn io timeout fuel) := obeys_retry hok hfail horig fuel
    simp only [retry, Prog.call_bind, obeys_op]
    refine ⟨hok _ _ rfl, fun n => ?_⟩
    split
    · exact ih _
    split
    · refine Obeys.bind (L := fun _ _ => True) (fun _ _ _ => ?_) (obeys_arm hok _)
      refine ⟨hok _ _ trivial, fun rt => ?_⟩
      cases rt with
      | some e =>
        refine Obeys.bind (L := fun _ _ => True) (fun _ _ _ => ?_) (obeys_disarm hok _)
        exact hfail _ _
      | none =>
        refine ⟨hok _ _ trivial, fun _ => ?_⟩
        refine Obeys.bind (L := fun _ _ => True) (fun _ _ _ => ?_) (obeys_disarm hok _)
        refine ⟨hok _ _ trivial, fun x => ?_⟩
        dsimp only
        split
        · exact hfail _ _
        · exact ih _
    · exact horig _ _

/-- The beginning of a call that looks for a managed socket that is blocking to its user. `K` says in what states of the
monitor a call may look at its context, and goes on looking. -/
theorem obeys_looking {K : G → Prop} {missing passed : Hooked Ret} {found : Nat → Hooked Ret}
    (hlook : ∀ g o, K g → LookOp o → m.ok g o ∧ ∀ r, K (m.next g o r)) (hfail : ∀ g, K g → L g ⟨-1, .ebadf⟩)
    (hmissing : ∀ g, K g → Obeys m L g missing) (hpass : ∀ g, K g → Obeys m L g passed)
    (hfound : ∀ g ctx, K g → Obeys m L g (found ctx)) {g : G} (hg : K g) :
    Obeys m L g (get fd false >>= fun o =>
      match o with
      | none => missing
      | some ctx => isClosed ctx >>= fun b =>
        if b then pure ⟨-1, .ebadf⟩
        else isSocket ctx >>= fun b =>
          if !b then passed
          else getUserNonblock ctx >>= fun b => if b then passed else found ctx) := by
  obtain ⟨hget, hg⟩ := hlook g (.get fd false) hg rfl
  refine ⟨hget, fun c => ?_⟩
  cases c with
  | none => exact hmissing _ (hg _)
  | some c =>
    obtain ⟨hclosed, hg⟩ := hlook _ (.isClosed c) (hg (some c)) trivial
    refine ⟨hclosed, fun b => ?_⟩
    dsimp only [Prog.bind]
    split
    · exact hfail _ (hg _)
    obtain ⟨hsocket, hg⟩ := hlook _ (.isSocket c) (hg b) trivial
    refine ⟨hsocket, fun b => ?_⟩
    dsimp only [Prog.bind]
    split
    · exact hpass _ (hg _)
    obtain ⟨huser, hg⟩ := hlook _ (.getUserNonblock c) (hg b) trivial
    refine ⟨huser, fun b => ?_⟩
    dsimp only [Prog.bind]
    split
    · exact hpass _ (hg _)
    · exact hfound _ c (hg _)

/-- **`do_io`**, from its loop. -/
theorem obeys_looks {hook : Bool} {fuel : Nat} {K : G → Prop}
    (hlook : ∀ g o, K g → LookOp o → m.ok g o ∧ ∀ r, K (m.next g o r)) (hfail : ∀ g, K g → L g ⟨-1, .ebadf⟩)
    (hpass : ∀ g, K g → Obeys m L g (orig (fn fd))) (hretry : ∀ g v, K g → Obeys m L g (retry fd fn io v fuel)) {g : G}
    (hg : K g) : Obeys m L g (doIo hook fuel fd fn io) := by
  unfold doIo
  split
  · exact hpass g hg
  refine obeys_looking hlook hfail hpass hpass (fun g c hg => ?_) hg
  obtain ⟨htimeout, hg⟩ := hlook _ (.getTimeout c io.timeoutSo) hg trivial
  exact ⟨htimeout, fun v => hretry _ v (hg v)⟩

/-- **What `do_io` calls**, and what it returns: `-1`, or what its last original call returned. -/
theorem obeys_doIo {hook : Bool} {fuel : Nat} (hok : ∀ g o, IoOp (fn fd) o → m.ok g o) (hfail : ∀ g e, L g ⟨-1, e⟩)
    (horig : ∀ g n, L (m.next g (.orig (fn fd)) n) n) (g : G) : Obeys m L g (doIo hook fuel fd fn io) :=
  obeys_looks (K := fun _ => True) (fun g o _ ho => ⟨hok g o ho.ioOp, fun _ => trivial⟩) (fun g _ => hfail g _)
    (fun g _ => ⟨hok g _ rfl, fun n => horig g n⟩) (fun g _ _ => obeys_retry hok hfail horig fuel g) trivial

end

/-! ## Sleeping -/

def sleep (hook : Bool) (seconds : BitVec 32) : Hooked Ret :=
  if !hook then orig (.sleep seconds)
  else do
    -- an `unsigned int` times an `int`
    addTimer (seconds * 1000#32).toNat
    pure ⟨0, ← yield⟩

def usleep (hook : Bool) (usec : BitVec 32) : Hooked Ret :=
  if !hook then orig (.usleep usec)
  else do
    addTimer (usec / 1000#32).toNat
    pure ⟨0, ← yield⟩

/-- `int timeout_ms = req->tv_sec*1000 + req->tv_nsec/1000/1000`. -/
def timeoutMs (req : Timespec) : BitVec 32 := .ofInt 32 (req.sec * 1000 + (req.nsec.tdiv 1000).tdiv 1000)

def nanosleep (hook : Bool) (req : Timespec) (rem : Ptr) : Hooked Ret :=
  if !hook then orig (.nanosleep req rem)
  else do
    addTimer ((timeoutMs req).signExtend 64).toNat
    pure ⟨0, ← yield⟩

/-! ## Sockets -/

def socket (hook : Bool) (domain type protocol : Int) : Hooked Ret :=
  if !hook then orig (.socket domain type protocol)
  else do
    let fd ← orig (.socket domain type protocol)
    if fd.n == -1 then pure fd
    else
      let _ ← get fd.n true
      pure fd

/-- `connect_with_timeout` from the `SO_ERROR` check on. -/
def connected (fd : Int) : Hooked Ret := do
  let r ← soError fd
  if r.1.n == -1 then pure r.1
  else
    match r.2 with
    | some error => pure ⟨-1, error⟩
    | none => pure ⟨0, r.1.errno⟩

def connectWithTimeout (hook : Bool) (fd : Int) (addr : Ptr) (addrlen : Nat) (timeout : Option Nat) : Hooked Ret :=
  if !hook then orig (.connect fd addr addrlen)
  else do
    match ← get fd false with
    | none => pure ⟨-1, .ebadf⟩
    | some ctx =>
      if ← isClosed ctx then pure ⟨-1, .ebadf⟩
      else if !(← isSocket ctx) then orig (.connect fd addr addrlen)
      else if ← getUserNonblock ctx then orig (.connect fd addr addrlen)
      else
        let n ← orig (.connect fd addr addrlen)
        if !n.failed einprogress then pure n
        else
          arm timeout fd .write
          match ← addEvent fd .write with
          | none =>
            let _ ← yield
            disarm timeout
            match ← cancelled with
            | some e => pure ⟨-1, e⟩
            | none => connected fd
          | some _ =>
            disarm timeout
            connected fd

/-- **`connect_with_timeout`**, from its wait. -/
theorem obeys_connects {G : Type} {m : Monitor Op Op.Reply G} {L : G → Ret → Prop} {K : G → Prop} {hook : Bool}
    {fd : Int} {addr : Ptr} {addrlen : Nat} {timeout : Option Nat}
    (hlook : ∀ g o, K g → LookOp o → m.ok g o ∧ ∀ r, K (m.next g o r)) (hfail : ∀ g, K g → L g ⟨-1, .ebadf⟩)
    (hpass : ∀ g, K g → Obeys m L g (orig (.connect fd addr addrlen)))
    (hwait : ∀ g, K g → ∀ n, Obeys m L (m.next g (.orig (.connect fd addr addrlen)) n)
      (arm timeout fd .write >>= fun _ => addEvent fd .write >>= fun rt =>
        match rt with
        | none => yield >>= fun _ => disarm timeout >>= fun _ => cancelled >>= fun x =>
          match x with
          | some e => pure ⟨-1, e⟩
          | none => connected fd
        | some _ => disarm timeout >>= fun _ => connected fd)) {g : G} (hg : K g) :
    Obeys m L g (connectWithTimeout hook fd addr addrlen timeout) := by
  unfold connectWithTimeout
  split
  · exact hpass g hg
  refine obeys_looking hlook hfail (fun g hg => obeys_ret.mpr (hfail g hg)) hpass (fun g c hg => ?_) hg
  obtain ⟨hcall, hdone⟩ := hpass g hg
  refine ⟨hcall, fun n => ?_⟩
  dsimp only [Prog.bind]
  split
  · exact hdone n
  · exact hwait g hg n

/-- `s_connect_timeout`, which is `(uint64_t)-1`. -/
def connectTimeout : Option Nat := none

def connect (hook : Bool) (fd : Int) (addr : Ptr) (addrlen : Nat) : Hooked Ret :=
  connectWithTimeout hook fd addr addrlen connectTimeout

def accept (hook : Bool) (fuel : Nat) (fd : Int) (addr addrlen : Ptr) : Hooked Ret := do
  let r ← doIo hook fuel fd (fun fd => .accept fd addr addrlen) .reads
  if 0 ≤ r.n then
    let _ ← get r.n true
    pure r
  else pure r

/-! ## Descriptors -/

def close (hook : Bool) (fd : Int) : Hooked Ret :=
  if !hook then orig (.close fd)
  else do
    match ← get fd false with
    | none => orig (.close fd)
    | some _ =>
      if ← getIom then
        cancelAll fd
        del fd
        orig (.close fd)
      else
        del fd
        orig (.close fd)

/-- The context of the descriptor, unless `!ctx || ctx->isClosed() || !ctx->isSocket()`. -/
def openSocket (fd : Int) : Hooked (Option Nat) := do
  match ← get fd false with
  | none => pure none
  | some ctx =>
    if ← isClosed ctx then pure none
    else if !(← isSocket ctx) then pure none
    else pure (some ctx)

def fcntl (fd : Int) : Fcntl → Hooked Ret
  | .setfl arg => do
    match ← openSocket fd with
    | none => orig (.fcntl fd (.setfl arg))
    | some ctx =>
      setUserNonblock ctx (nonblock arg)
      if ← getSysNonblock ctx then orig (.fcntl fd (.setfl (arg ||| oNonblock)))
      else orig (.fcntl fd (.setfl (arg &&& ~~~oNonblock)))
  | .getfl _ => do
    let r ← orig (.fcntl fd (.getfl none))
    match ← openSocket fd with
    | none => pure r
    | some ctx =>
      -- `int arg = fcntl_f(fd, cmd)`
      if ← getUserNonblock ctx then pure ⟨(BitVec.ofInt 32 r.n ||| oNonblock).toInt, r.errno⟩
      else pure ⟨(BitVec.ofInt 32 r.n &&& ~~~oNonblock).toInt, r.errno⟩
  | .int cmd arg => orig (.fcntl fd (.int cmd arg))
  | .plain cmd _ => orig (.fcntl fd (.plain cmd none))
  | .lock cmd arg => orig (.fcntl fd (.lock cmd arg))
  | .owner cmd arg => orig (.fcntl fd (.owner cmd arg))
  | .other cmd _ => orig (.fcntl fd (.other cmd none))

def ioctl (fd : Int) (request : Request) (arg : Ptr) (value : BitVec 32) : Hooked Ret :=
  match request with
  | .fionbio => do
    match ← openSocket fd with
    | none => orig (.ioctl fd .fionbio arg value)
    | some ctx =>
      setUserNonblock ctx (value != 0#32)
      orig (.ioctl fd .fionbio arg value)
  | .other request => orig (.ioctl fd (.other request) arg value)

def getsockopt (fd : Int) (level : Level) (optname : OptName) (optval optlen : Ptr) : Hooked Ret :=
  orig (.getsockopt fd level optname optval optlen)

/-- A `uint64_t` as a timeout. -/
def timeoutOf (v : BitVec 64) : Option Nat := if v = -1#64 then none else some v.toNat

def setsockopt (hook : Bool) (fd : Int) (level : Level) (optname : OptName) (optval : Ptr) (tv : Timeval)
    (optlen : Nat) : Hooked Ret :=
  if !hook then orig (.setsockopt fd level optname optval tv optlen)
  else
    match level, optname with
    | .solSocket, .timeo so => do
      match ← get fd false with
      | none => orig (.setsockopt fd .solSocket (.timeo so) optval tv optlen)
      | some ctx =>
        setTimeout ctx so (timeoutOf (.ofInt 64 (tv.sec * 1000 + tv.usec.tdiv 1000)))
        orig (.setsockopt fd .solSocket (.timeo so) optval tv optlen)
    | level, optname => orig (.setsockopt fd level optname optval tv optlen)

/-! ## All of them -/

/-- **A hooked call.** -/
def hooked (hook : Bool) (fuel : Nat) : Call → Hooked Ret
  | .sleep seconds => sleep hook seconds
  | .usleep usec => usleep hook usec
  | .nanosleep req rem => nanosleep hook req rem
  | .socket domain type protocol => socket hook domain type protocol
  | .connect fd addr addrlen => connect hook fd addr addrlen
  | .accept fd addr addrlen => accept hook fuel fd addr addrlen
  | .read fd buf count => doIo hook fuel fd (fun fd => .read fd buf count) .reads
  | .readv fd iov iovcnt => doIo hook fuel fd (fun fd => .readv fd iov iovcnt) .reads
  | .recv fd buf len flags => doIo hook fuel fd (fun fd => .recv fd buf len flags) .reads
  | .recvfrom fd buf len flags srcAddr addrlen =>
    doIo hook fuel fd (fun fd => .recvfrom fd buf len flags srcAddr addrlen) .reads
  | .recvmsg fd msg flags => doIo hook fuel fd (fun fd => .recvmsg fd msg flags) .reads
  | .write fd buf count => doIo hook fuel fd (fun fd => .write fd buf count) .writes
  | .writev fd iov iovcnt => doIo hook fuel fd (fun fd => .writev fd iov iovcnt) .writes
  | .send fd buf len flags => doIo hook fuel fd (fun fd => .send fd buf len flags) .writes
  | .sendto fd buf len flags destAddr addrlen =>
    doIo hook fuel fd (fun fd => .sendto fd buf len flags destAddr addrlen) .writes
  | .sendmsg fd msg flags => doIo hook fuel fd (fun fd => .sendmsg fd msg flags) .writes
  | .close fd => close hook fd
  | .fcntl fd cmd => fcntl fd cmd
  | .ioctl fd request arg value => ioctl fd request arg value
  | .getsockopt fd level optname optval optlen => getsockopt fd level optname optval optlen
  | .setsockopt fd level optname optval tv optlen => setsockopt hook fd level optname optval tv optlen

end Sylar.Calls
