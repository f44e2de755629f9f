import Mathlib.Tactic.Simproc.ExistsAndEq
import Sylar.Hook.World

/-!
# The control calls

What the hooked `fcntl` and `ioctl` do, for whatever the original function answers.

- `Once`: a program that calls one original function, and returns for every answer of it; the rules for its parts;
- `run_openSocket`: the lookup that the control calls begin with;
- `once_setfl`, `once_getfl`, `once_fionbio`: the calls that the contexts matter for.
-/

namespace Sylar.Calls

open Trans Hook

variable {env : Env} {w w' : World} {es : Events} {r : Ret} {fd : Int}

/-! ## One original call -/

/-- The program calls one original function, `c`, and whatever that answers, the program returns: the answer `o` makes
it return `ret o`, in the world `after o`. -/
structure Once (env : Env) (w : World) (p : Hooked Ret) (c : Call) (after : Ret → World) (ret : Ret → Ret) : Prop where
  returns : ∀ o, w.Returns c o → ∃ es, originals es = [(c, o)] ∧ Run (sem env) w p es (after o) (ret o)
  only : ∀ es w' r, Run (sem env) w p es w' r →
    ∃ o, w.Returns c o ∧ originals es = [(c, o)] ∧ w' = after o ∧ r = ret o

theorem once_orig {c : Call} : Once env w (orig c) c (w.kernel env c) id where
  returns o ho := ⟨_, rfl, .op ho (.ret _ _)⟩
  only es w' r h := by
    obtain ⟨o, es', ho, rfl, h'⟩ := run_op.mp h
    obtain ⟨rfl, rfl, rfl⟩ := run_ret.mp h'
    exact ⟨r, ho, rfl, rfl, rfl⟩

variable {c : Call} {after : Ret → World} {ret : Ret → Ret}

/-- What precedes the original call: an operation that the kernel does not notice, whatever it answers. -/
theorem Once.prior {o : Op} {k : o.Reply → Hooked Ret} (hex : ∃ a, allowed w o a)
    (h : ∀ a, allowed w o a → original ⟨w, o, a⟩ = none ∧ (∀ r, (next env w o a).Returns c r ↔ w.Returns c r) ∧
      Once env (next env w o a) (k a) c after ret) : Once env w (.op o k) c after ret where
  returns x hx := by
    obtain ⟨a, ha⟩ := hex
    obtain ⟨ho, hret, hk⟩ := h a ha
    obtain ⟨es, hes, hr⟩ := hk.returns x ((hret x).mpr hx)
    exact ⟨_, by rw [originals_cons, ho, hes]; rfl, .op ha hr⟩
  only es w' r hr := by
    obtain ⟨a, es', ha, rfl, hr'⟩ := run_op.mp hr
    obtain ⟨ho, hret, hk⟩ := h a ha
    obtain ⟨x, hx, hes, hw, hx'⟩ := hk.only _ _ _ hr'
    exact ⟨x, (hret x).mp hx, by rw [originals_cons, ho, hes]; rfl, hw, hx'⟩

/-- An operation with one possible answer. -/
theorem Once.silent {o : Op} {a : o.Reply} {k : o.Reply → Hooked Ret} (ha : ∀ r, allowed w o r ↔ r = a)
    (ho : original ⟨w, o, a⟩ = none) (hret : ∀ r, (next env w o a).Returns c r ↔ w.Returns c r)
    (h : Once env (next env w o a) (k a) c after ret) : Once env w (.op o k) c after ret := by
  refine Once.prior ⟨a, (ha a).mpr rfl⟩ fun b hb => ?_
  obtain rfl := (ha b).mp hb
  exact ⟨ho, hret, h⟩

theorem Once.get {k : Option Nat → Hooked Ret} (h : Once env w (k (w.reg fd)) c after ret) :
    Once env w (.op (.get fd false) k) c after ret :=
  Once.silent (o := .get fd false) (a := w.reg fd) (fun r => by simp [allowed]) rfl (fun r => Iff.rfl) h

/-- What follows the original call: a program without original calls, that answers one thing. -/
theorem once_bind {f : Ret → Hooked Ret}
    (hf : ∀ o, ∃ es, originals es = [] ∧ ∀ es' w' r,
      Run (sem env) (w.kernel env c o) (f o) es' w' r ↔ es' = es ∧ w' = after o ∧ r = ret o) :
    Once env w (orig c >>= f) c after ret where
  returns o ho := by
    obtain ⟨es, hes, hr⟩ := hf o
    exact ⟨⟨w, .orig c, o⟩ :: es, by rw [originals_cons, hes]; rfl, .op ho ((hr _ _ _).mpr ⟨rfl, rfl, rfl⟩)⟩
  only es w' r h := by
    obtain ⟨o, es', ho, rfl, h'⟩ := run_op.mp h
    obtain ⟨es₁, hes₁, hes⟩ := hf o
    obtain ⟨rfl, rfl, rfl⟩ := (hes _ _ _).mp h'
    exact ⟨o, ho, by rw [originals_cons, hes₁]; rfl, rfl, rfl⟩

/-! ## The lookup -/

/-- The events of `openSocket`. -/
def socketEvents (w : World) (fd : Int) : Events :=
  ⟨w, .get fd false, w.reg fd⟩ ::
    match w.reg fd with
    | none => []
    | some c =>
      ⟨w, .isClosed c, (w.ctx c).isClosed⟩ ::
        if (w.ctx c).isClosed then [] else [⟨w, .isSocket c, (w.ctx c).isSocket⟩]

@[simp] theorem originals_socketEvents : originals (socketEvents w fd) = [] := by
  unfold socketEvents
  split
  · rfl
  · split <;> rfl

/-- **`openSocket`** calls no original function and changes nothing; it answers the context of a managed socket. -/
theorem run_openSocket {o : Option Nat} :
    Run (sem env) w (openSocket fd) es w' o ↔ es = socketEvents w fd ∧ w' = w ∧ o = w.socket fd := by
  cases hc : w.reg fd with
  | none => simp [openSocket, socketEvents, World.socket, sem, allowed, next, hc]
  | some c =>
    cases hcl : (w.ctx c).isClosed with
    | true => simp [openSocket, socketEvents, World.socket, sem, allowed, next, hc, hcl, Option.filter]
    | false =>
      cases hso : (w.ctx c).isSocket with
      | true | false => simp [openSocket, socketEvents, World.socket, sem, allowed, next, hc, hcl, hso, Option.filter]

theorem Once.openSocket {f : Option Nat → Hooked Ret} (h : Once env w (f (w.socket fd)) c after ret) :
    Once env w (Calls.openSocket fd >>= f) c after ret where
  returns o ho := by
    obtain ⟨es, hes, hr⟩ := h.returns o ho
    refine ⟨socketEvents w fd ++ es, ?_, run_bind.mpr ⟨_, es, w, _, rfl, run_openSocket.mpr ⟨rfl, rfl, rfl⟩, hr⟩⟩
    rw [originals_append, originals_socketEvents, hes]
    rfl
  only es w' r hr := by
    obtain ⟨es₁, es₂, u, a, rfl, h₁, h₂⟩ := run_bind.mp hr
    obtain ⟨rfl, rfl, rfl⟩ := run_openSocket.mp h₁
    obtain ⟨o, ho, hes, hw, hr⟩ := h.only _ _ _ h₂
    exact ⟨o, ho, by rw [originals_append, originals_socketEvents, hes]; rfl, hw, hr⟩

/-! ## The calls -/

/-- The flags with `O_NONBLOCK` set or cleared. -/
def withNonblock (b : Bool) (flags : BitVec 32) : BitVec 32 :=
  if b then flags ||| oNonblock else flags &&& ~~~oNonblock

@[simp] theorem nonblock_withNonblock {b : Bool} {flags : BitVec 32} : nonblock (withNonblock b flags) = b := by
  cases b with
  | true => exact nonblock_set flags
  | false => exact nonblock_clear flags

theorem withNonblock_eq_self {b : Bool} {flags : BitVec 32} : withNonblock b flags = flags ↔ b = nonblock flags := by
  cases b with
  | true => exact set_eq_self.trans eq_comm
  | false => exact clear_eq_self.trans eq_comm

namespace World

/-- The flags that `F_SETFL` passes on. -/
def setflArg (w : World) (fd : Int) (arg : BitVec 32) : BitVec 32 :=
  match w.socket fd with
  | some c => withNonblock (w.ctx c).sysNonblock arg
  | none => arg

/-- The user's flag is kept in the context of a managed socket. -/
def setUser (w : World) (fd : Int) (v : Bool) : World :=
  match w.socket fd with
  | some c => w.setCtx c ((w.ctx c).setUserNonblock v)
  | none => w

/-- What `F_GETFL` makes of the answer. -/
def getflRet (w : World) (fd : Int) (o : Ret) : Ret :=
  match w.socket fd with
  | some c => ⟨(withNonblock (w.ctx c).userNonblock (.ofInt 32 o.n)).toInt, o.errno⟩
  | none => o

end World

/-- **`F_SETFL`** keeps the user's flag in the context of a managed socket, and passes on the system's. -/
theorem once_setfl (env : Env) (w : World) (fd : Int) (arg : BitVec 32) :
    Once env w (fcntl fd (.setfl arg)) (.fcntl fd (.setfl (w.setflArg fd arg)))
      ((w.setUser fd (nonblock arg)).kernel env (.fcntl fd (.setfl (w.setflArg fd arg)))) id := by
  refine Once.openSocket ?_
  unfold World.setflArg World.setUser
  cases hs : w.socket fd with
  | none => exact once_orig
  | some c =>
    have hsys : ((w.setCtx c ((w.ctx c).setUserNonblock (nonblock arg))).ctx c).sysNonblock =
        (w.ctx c).sysNonblock := by
      simp [World.setCtx, FdCtx.setUserNonblock]
    refine Once.silent (a := ()) (fun r => by simp [allowed]) rfl (fun r => Iff.rfl) ?_
    refine Once.silent (a := (w.ctx c).sysNonblock) (fun r => by rw [← hsys]; rfl) rfl (fun r => Iff.rfl) ?_
    dsimp only [withNonblock]
    cases hb : (w.ctx c).sysNonblock with
    | true | false => exact once_orig

/-- **`F_GETFL`** shows the user's flag of a managed socket. -/
theorem once_getfl (extra : Option Word) :
    Once env w (fcntl fd (.getfl extra)) (.fcntl fd (.getfl none)) (fun _ => w) (w.getflRet fd) := by
  refine once_bind fun o => ?_
  unfold World.getflRet
  cases hs : w.socket fd with
  | none =>
    refine ⟨socketEvents w fd, originals_socketEvents, fun es' w' r => ?_⟩
    change Run (sem env) w _ es' w' r ↔ _
    simp [run_bind, run_openSocket, hs]
  | some c =>
    refine ⟨socketEvents w fd ++ [⟨w, .getUserNonblock c, (w.ctx c).userNonblock⟩], ?_, fun es' w' r => ?_⟩
    · rw [originals_append, originals_socketEvents]
      rfl
    · change Run (sem env) w _ es' w' r ↔ _
      unfold withNonblock
      cases hu : (w.ctx c).userNonblock with
      | true | false =>
        simp only [run_bind, run_openSocket]
        simp [hs, hu, sem, allowed, next]

/-- **`FIONBIO`** keeps the user's flag in the context of a managed socket, and passes on what it is given. -/
theorem once_fionbio (env : Env) (w : World) (fd : Int) (arg : Ptr) (value : BitVec 32) :
    Once env w (ioctl fd .fionbio arg value) (.ioctl fd .fionbio arg value)
      ((w.setUser fd (value != 0#32)).kernel env (.ioctl fd .fionbio arg value)) id := by
  refine Once.openSocket ?_
  unfold World.setUser
  cases hs : w.socket fd with
  | none => exact once_orig
  | some c => exact Once.silent (a := ()) (fun r => by simp [allowed]) rfl (fun r => Iff.rfl) once_orig

end Sylar.Calls
