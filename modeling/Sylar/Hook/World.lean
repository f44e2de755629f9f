import Sylar.Hook.Calls

/-!
# Descriptors and their contexts

What the hooked functions work on: the kernel's descriptors, each of which refers to an open file with its status flags,
and the contexts that `FdMgr` has for numbers (`World`). `sem` is what the operations do to it.

- `FdMgr`: `get(fd, true)` returns the context that is there, or else creates one with the default settings of a user;
  `del` removes it. What else a new context says (`Env.make`), and what making it does to the flags of the descriptor
  (`Env.init`), is not the hooks' business.
- Kernel: a number is handed out only where none is open, and is open until `close_f`; a successful `F_SETFL` stores the
  flags it is given, a successful `FIONBIO` sets or clears `O_NONBLOCK`, `F_GETFL` returns what is stored. Nothing is
  assumed of what the other calls return.
- `IOManager`: nothing is assumed of its answers.
-/

namespace Sylar.Calls

open Trans Hook

/-- An `FdCtx`. -/
structure FdCtx extends Hook.FdCtx where
  isClosed : Bool
  sysNonblock : Bool
deriving DecidableEq, Repr

/-- The settings of a user: user-nonblock and the two timeouts. -/
structure Settings where
  userNonblock : Bool
  rcvTimeout : Option Nat
  sndTimeout : Option Nat
deriving DecidableEq, Repr

/-- Blocking, without timeouts. -/
def Settings.default : Settings := ⟨false, none, none⟩

def FdCtx.settings (x : FdCtx) : Settings := ⟨x.userNonblock, x.rcvTimeout, x.sndTimeout⟩

def FdCtx.setUserNonblock (x : FdCtx) (v : Bool) : FdCtx := { x with userNonblock := v }

def FdCtx.setTimeout (x : FdCtx) (so : TimeoutSo) (v : Option Nat) : FdCtx :=
  match so with
  | .rcv => { x with rcvTimeout := v }
  | .snd => { x with sndTimeout := v }

/-- The open files with their flags, the descriptors, the contexts, of which there are `ctxs` so far, and those that are
registered for a number. -/
structure World where
  files : List (BitVec 32)
  file : Int → Option Nat
  ctx : Nat → FdCtx
  ctxs : Nat
  reg : Int → Option Nat

namespace World

def opened (w : World) (fd : Int) : Bool := (w.file fd).isSome

/-- The status flags of a descriptor. -/
def flags (w : World) (fd : Int) : Option (BitVec 32) := (w.file fd).bind fun f => w.files[f]?

/-- The context of a managed socket: there is one, it is not closed and it is of a socket. -/
def socket (w : World) (fd : Int) : Option Nat :=
  (w.reg fd).filter fun c => !(w.ctx c).isClosed && (w.ctx c).isSocket

/-- A managed socket that is blocking to its user. -/
def Blocking (w : World) (fd : Int) : Prop := ∃ c ∈ w.socket fd, (w.ctx c).userNonblock = false

/-- A new descriptor of a new file. -/
def openFile (w : World) (fd : Int) (flags : BitVec 32) : World :=
  { w with files := w.files ++ [flags], file := Function.update w.file fd (some w.files.length) }

/-- A new descriptor of the file of another one. -/
def dupFile (w : World) (fd fd' : Int) : World := { w with file := Function.update w.file fd' (w.file fd) }

def modifyFlags (w : World) (fd : Int) (g : BitVec 32 → BitVec 32) : World :=
  match w.file fd with
  | some f => { w with files := w.files.modify f g }
  | none => w

def closeFile (w : World) (fd : Int) : World := { w with file := Function.update w.file fd none }

def setCtx (w : World) (c : Nat) (x : FdCtx) : World := { w with ctx := Function.update w.ctx c x }

/-- A new context, registered for a number. -/
def create (w : World) (fd : Int) (x : FdCtx) : World :=
  { w.setCtx w.ctxs x with ctxs := w.ctxs + 1, reg := Function.update w.reg fd (some w.ctxs) }

def unregister (w : World) (fd : Int) : World := { w with reg := Function.update w.reg fd none }

end World

/-- The rest of the system: the context that is made for a number, which has the default settings, what making it does
to the flags, and the flags of a new file. -/
structure Env where
  make : World → Int → FdCtx
  init : World → Int → BitVec 32 → BitVec 32
  flags : Call → BitVec 32
  make_settings : ∀ w fd, (make w fd).settings = .default

/-- The commands that return a new descriptor. -/
def IntCmd.dups : IntCmd → Bool
  | .dupfd | .dupfdCloexec => true
  | _ => false

/-- Whether a successful call of the original function returns a new descriptor. -/
def Call.opens : Call → Bool
  | .socket .. | .accept .. => true
  | .fcntl _ (.int cmd _) => cmd.dups
  | _ => false

/-- The status flags as `FIONBIO` leaves them. -/
def fionbio (value flags : BitVec 32) : BitVec 32 :=
  if value = 0#32 then flags &&& ~~~oNonblock else flags ||| oNonblock

namespace World

/-- What the kernel can return. -/
def Returns (w : World) (c : Call) (r : Ret) : Prop :=
  if c.opens then r.n = -1 ∨ 0 ≤ r.n ∧ w.opened r.n = false
  else
    match c with
    | .fcntl fd (.getfl _) => r.n = -1 ∨ (w.flags fd).map BitVec.toInt = some r.n
    | _ => True

/-- What the kernel does, where it returns `r`. -/
def kernel (env : Env) (w : World) (c : Call) (r : Ret) : World :=
  match c with
  | .socket .. | .accept .. => if r.n = -1 then w else w.openFile r.n (env.flags c)
  | .close fd => w.closeFile fd
  | .fcntl fd (.int cmd _) => if cmd.dups ∧ r.n ≠ -1 then w.dupFile fd r.n else w
  | .fcntl fd (.setfl arg) => if r.n = -1 then w else w.modifyFlags fd fun _ => arg
  | .ioctl fd .fionbio _ value => if r.n = -1 then w else w.modifyFlags fd (fionbio value)
  | _ => w

/-- `get(fd, true)`. -/
def register (env : Env) (w : World) (fd : Int) : World :=
  if w.reg fd = none then (w.modifyFlags fd (env.init w fd)).create fd (env.make w fd) else w

end World

/-- What an operation can answer. -/
def allowed (w : World) : (o : Op) → o.Reply → Prop
  | .orig c, r => w.Returns c r
  | .get fd autoCreate, c => c = if autoCreate then some ((w.reg fd).getD w.ctxs) else w.reg fd
  | .isClosed c, b => b = (w.ctx c).isClosed
  | .isSocket c, b => b = (w.ctx c).isSocket
  | .getUserNonblock c, b => b = (w.ctx c).userNonblock
  | .getSysNonblock c, b => b = (w.ctx c).sysNonblock
  | .getTimeout c so, v => v = (w.ctx c).getTimeout so
  | .unrolled, _ => False
  | _, _ => True

/-- What an operation does. -/
def next (env : Env) (w : World) : (o : Op) → o.Reply → World
  | .orig c, r => w.kernel env c r
  | .get fd true, _ => w.register env fd
  | .setUserNonblock c v, _ => w.setCtx c ((w.ctx c).setUserNonblock v)
  | .setTimeout c so v, _ => w.setCtx c ((w.ctx c).setTimeout so v)
  | .del fd, _ => w.unregister fd
  | _, _ => w

instance (w : World) (c : Call) (r : Ret) : Decidable (w.Returns c r) := by
  unfold World.Returns
  split
  · infer_instance
  · split <;> infer_instance

instance (w : World) (o : Op) (r : o.Reply) : Decidable (allowed w o r) := by
  cases o <;> dsimp only [allowed] <;> infer_instance

/-- **The meaning of the operations.** -/
def sem (env : Env) : Sem Op Op.Reply World where
  allowed := allowed
  next := next env

instance (env : Env) (w : World) (o : Op) (r : o.Reply) : Decidable ((sem env).allowed w o r) :=
  inferInstanceAs (Decidable (allowed w o r))

/-- Every new context is of a socket that is made non-blocking. -/
def Env.sockets : Env where
  make _ _ := ⟨⟨true, false, none, none⟩, false, true⟩
  init _ _ flags := flags ||| oNonblock
  flags _ := 2#32
  make_settings _ _ := rfl

/-- One managed socket, open for reading and writing, as it is made. -/
def World.oneSocket : World where
  files := [2050#32]
  file fd := if fd = 5 then some 0 else none
  ctx _ := ⟨⟨true, false, none, none⟩, false, true⟩
  ctxs := 1
  reg fd := if fd = 5 then some 0 else none

/-! ## Runs -/

/-- The events of a call. -/
abbrev Events := List (Event Op Op.Reply World)

/-- The original call that an event is, with its result. -/
def original : Event Op Op.Reply World → Option (Call × Ret)
  | ⟨_, .orig c, r⟩ => some (c, r)
  | ⟨_, .soError fd, r⟩ => some (.getsockopt fd .solSocket .soError 0 0, r.1)
  | _ => none

/-- The original calls of a run. -/
def originals (es : Events) : List (Call × Ret) := es.filterMap original

@[simp] theorem originals_nil : originals [] = [] := rfl

theorem originals_append (es es' : Events) : originals (es ++ es') = originals es ++ originals es' :=
  List.filterMap_append

@[simp] theorem originals_cons (e : Event Op Op.Reply World) (es : Events) :
    originals (e :: es) = (original e).toList ++ originals es := by
  unfold originals
  rw [List.filterMap_cons]
  cases original e <;> rfl

/-! ## Frames -/

variable {env : Env} {w w' : World} {es : Events} {r : Ret} {fd : Int}

@[simp] theorem modifyFlags_ctx {g : BitVec 32 → BitVec 32} : (w.modifyFlags fd g).ctx = w.ctx := by
  unfold World.modifyFlags
  split <;> rfl

@[simp] theorem modifyFlags_ctxs {g : BitVec 32 → BitVec 32} : (w.modifyFlags fd g).ctxs = w.ctxs := by
  unfold World.modifyFlags
  split <;> rfl

@[simp] theorem modifyFlags_reg {g : BitVec 32 → BitVec 32} : (w.modifyFlags fd g).reg = w.reg := by
  unfold World.modifyFlags
  split <;> rfl

/-- The kernel knows nothing of contexts. -/
@[simp] theorem kernel_ctx {c : Call} : (w.kernel env c r).ctx = w.ctx := by
  unfold World.kernel
  split <;> (try split) <;> first | rfl | simp

@[simp] theorem kernel_ctxs {c : Call} : (w.kernel env c r).ctxs = w.ctxs := by
  unfold World.kernel
  split <;> (try split) <;> first | rfl | simp

@[simp] theorem kernel_reg {c : Call} : (w.kernel env c r).reg = w.reg := by
  unfold World.kernel
  split <;> (try split) <;> first | rfl | simp

end Sylar.Calls
