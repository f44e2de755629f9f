import Sylar.Hook.Control

/-!
# Hooked calls on a thread with the hooks off

Most functions test `t_hook_enable` first. `accept` does so for its original call only, `fcntl` and `ioctl` do not.

- `Transparent`: what is asked of a call on such a thread;
- `once_disabled`: every call is one original call, with what is around it;
- `Spared`: the calls that what lies behind the missing tests leaves alone; `disabled`: they are transparent, and no
  others are.
-/

namespace Sylar.Calls

open Trans Hook

variable {env : Env} {w w' : World} {es : Events} {r : Ret} {fd : Int} {fuel : Nat} {c : Call}

/-- A call that makes exactly one original call, with its own arguments, and returns its result, and that neither
creates a context nor changes the settings of one. -/
structure Transparent (c : Call) (w : World) (es : Events) (w' : World) (r : Ret) : Prop where
  once : originals es = [(c, r)]
  creates : w'.ctxs = w.ctxs
  settings : ∀ i, (w'.ctx i).settings = (w.ctx i).settings

/-- What lies behind the missing tests leaves the call alone, where the original function returns `o`. -/
def Spared (w : World) (o : Ret) : Call → Prop
  | .accept _ _ _ => o.n < 0 ∨ w.reg o.n ≠ none
  | .fcntl fd (.setfl arg) =>
    ∀ i ∈ w.socket fd, (w.ctx i).sysNonblock = nonblock arg ∧ (w.ctx i).userNonblock = nonblock arg
  | .fcntl fd (.getfl extra) =>
    extra = none ∧ ∀ i ∈ w.socket fd, (w.ctx i).userNonblock = nonblock (.ofInt 32 o.n)
  | .fcntl _ (.plain _ extra) => extra = none
  | .fcntl _ (.other _ arg) => arg = none
  | .ioctl fd .fionbio _ value => ∀ i ∈ w.socket fd, (w.ctx i).userNonblock = (value != 0#32)
  | _ => True

/-! ## One original call -/

namespace World

/-- The original call that a hooked call makes on such a thread. -/
def passed (w : World) : Call → Call
  | .fcntl fd (.setfl arg) => .fcntl fd (.setfl (w.setflArg fd arg))
  | .fcntl fd (.getfl _) => .fcntl fd (.getfl none)
  | .fcntl fd (.plain cmd _) => .fcntl fd (.plain cmd none)
  | .fcntl fd (.other cmd _) => .fcntl fd (.other cmd none)
  | c => c

/-- The world after it, where the original call returns `o`. -/
def after (env : Env) (w : World) (o : Ret) : Call → World
  | .accept fd addr addrlen =>
    if 0 ≤ o.n then (w.kernel env (.accept fd addr addrlen) o).register env o.n
    else w.kernel env (.accept fd addr addrlen) o
  | .fcntl fd (.setfl arg) =>
    (w.setUser fd (nonblock arg)).kernel env (.fcntl fd (.setfl (w.setflArg fd arg))) o
  | .ioctl fd .fionbio arg value => (w.setUser fd (value != 0#32)).kernel env (.ioctl fd .fionbio arg value) o
  | c => w.kernel env c o

/-- What it returns. -/
def ret (w : World) (o : Ret) : Call → Ret
  | .fcntl fd (.getfl _) => w.getflRet fd o
  | _ => o

end World

/-- `accept` makes a context for the new descriptor. -/
theorem once_accept (fuel : Nat) {addr addrlen : Ptr} :
    Once env w (accept false fuel fd addr addrlen) (.accept fd addr addrlen)
      (fun o => w.after env o (.accept fd addr addrlen)) id := by
  refine once_bind fun o => ?_
  dsimp only [World.after]
  split
  · refine ⟨[⟨w.kernel env (.accept fd addr addrlen) o, .get o.n true, some ((w.reg o.n).getD w.ctxs)⟩], rfl,
      fun es' w' r => ?_⟩
    simp [sem, allowed, next]
  · exact ⟨[], rfl, fun es' w' r => run_ret⟩

/-- **With the hooks off** a call makes one original call. -/
theorem once_disabled :
    Once env w (hooked false fuel c) (w.passed c) (fun o => w.after env o c) (fun o => w.ret o c) := by
  cases c with
  | accept fd addr addrlen => exact once_accept fuel
  | fcntl fd cmd =>
    cases cmd with
    | setfl arg => exact once_setfl ..
    | getfl extra => exact once_getfl extra
    | _ => exact once_orig
  | ioctl fd request arg value =>
    cases request with
    | fionbio => exact once_fionbio ..
    | other request => exact once_orig
  | _ => exact once_orig

/-! ## Which of them are transparent -/

/-- The settings after `setUserNonblock` on the context of a managed socket. -/
theorem settings_setUser {v : Bool} :
    (∀ i, ((w.setUser fd v).ctx i).settings = (w.ctx i).settings) ↔
      ∀ i ∈ w.socket fd, (w.ctx i).userNonblock = v := by
  unfold World.setUser
  cases hs : w.socket fd with
  | none => simp
  | some c =>
    constructor
    · intro h i hi
      cases hi
      have hc := h c
      simp only [World.setCtx, Function.update_self] at hc
      exact (congrArg Settings.userNonblock hc).symm
    · intro h i
      by_cases hi : i = c
      · subst hi
        simp [World.setCtx, FdCtx.setUserNonblock, FdCtx.settings, h i rfl]
      · simp [World.setCtx, hi]

theorem setUser_ctxs {v : Bool} : (w.setUser fd v).ctxs = w.ctxs := by
  unfold World.setUser
  split <;> rfl

theorem setflArg_eq_self {arg : BitVec 32} :
    w.setflArg fd arg = arg ↔ ∀ i ∈ w.socket fd, (w.ctx i).sysNonblock = nonblock arg := by
  unfold World.setflArg
  cases w.socket fd with
  | none => simp
  | some c => simpa using withNonblock_eq_self

/-- An `int` that the kernel returns for the flags is kept by the conversion to them. -/
theorem getflRet_eq_self {o : Ret} (ho : w.Returns (.fcntl fd (.getfl none)) o) :
    w.getflRet fd o = o ↔ ∀ i ∈ w.socket fd, (w.ctx i).userNonblock = nonblock (.ofInt 32 o.n) := by
  have hint : (BitVec.ofInt 32 o.n).toInt = o.n := by
    obtain ho | ho : o.n = -1 ∨ (w.flags fd).map BitVec.toInt = some o.n := ho
    · rw [ho]
      rfl
    · obtain ⟨v, -, hv⟩ := Option.map_eq_some_iff.mp ho
      rw [← hv, BitVec.ofInt_toInt]
  unfold World.getflRet
  cases w.socket fd with
  | none => simp
  | some c =>
    simp only [Option.mem_def, Option.some.injEq, forall_eq']
    rw [← withNonblock_eq_self, ← BitVec.toInt_inj, hint]
    exact ⟨congrArg Ret.n, fun hn => by rw [hn]⟩

/-- `get(fd, true)` creates nothing just where there is a context. -/
theorem register_ctxs (env : Env) (w : World) (fd : Int) :
    (w.register env fd).ctxs = w.ctxs ↔ w.reg fd ≠ none := by
  unfold World.register
  split <;> simp [World.create, *]

/-- The parts of `Transparent`, for the calls with the hooks off. -/
theorem spared_iff (env : Env) {o : Ret} (ho : w.Returns (w.passed c) o) :
    Spared w o c ↔ w.passed c = c ∧ w.ret o c = o ∧ (w.after env o c).ctxs = w.ctxs ∧
      ∀ i, ((w.after env o c).ctx i).settings = (w.ctx i).settings := by
  cases c with
  | accept fd addr addrlen =>
    dsimp only [Spared, World.passed, World.ret, World.after]
    split
    · rename_i hn
      have hctxs := register_ctxs env (w.kernel env (.accept fd addr addrlen) o) o.n
      rw [kernel_ctxs, kernel_reg] at hctxs
      rw [hctxs]
      refine ⟨fun h => ?_, fun h => Or.inr h.2.2.1⟩
      have hreg : w.reg o.n ≠ none := h.resolve_left (by omega)
      simp [World.register, hreg]
    · simpa using Or.inl (by omega)
  | fcntl fd cmd =>
    cases cmd with
    | setfl arg =>
      simp [Spared, World.passed, World.ret, World.after, setUser_ctxs, settings_setUser, setflArg_eq_self, forall_and]
    | getfl extra =>
      have hk : w.kernel env (.fcntl fd (.getfl extra)) o = w := rfl
      simp [Spared, World.passed, World.ret, World.after, getflRet_eq_self ho, hk, eq_comm]
    | plain | other | int | lock | owner => simp [Spared, World.passed, World.ret, World.after, eq_comm]
  | ioctl fd request arg value =>
    cases request with
    | fionbio => simp [Spared, World.passed, World.ret, World.after, setUser_ctxs, settings_setUser]
    | other request => simp [Spared, World.passed, World.ret, World.after]
  | _ => simp [Spared, World.passed, World.ret, World.after]

/-- **Transparency with the hooks off.** Whatever the registry is and whatever the original function returns, the call
returns after exactly one original call; and it is transparent just when what lies behind the missing tests leaves it
alone. -/
theorem disabled :
    (∀ o, w.Returns (w.passed c) o →
      ∃ es w' r, originals es = [(w.passed c, o)] ∧ Run (sem env) w (hooked false fuel c) es w' r) ∧
    ∀ es w' r, Run (sem env) w (hooked false fuel c) es w' r →
      ∃ o, originals es = [(w.passed c, o)] ∧ (Transparent c w es w' r ↔ Spared w o c) := by
  refine ⟨fun o ho => ?_, fun es w' r h => ?_⟩
  · obtain ⟨es, hes, h⟩ := once_disabled.returns o ho
    exact ⟨es, _, _, hes, h⟩
  · obtain ⟨o, ho, hes, rfl, rfl⟩ := once_disabled.only _ _ _ h
    refine ⟨o, hes, ?_⟩
    rw [spared_iff env ho]
    constructor
    · rintro ⟨honce, hctxs, hset⟩
      have := hes.symm.trans honce
      simp only [List.cons.injEq, Prod.mk.injEq, and_true] at this
      exact ⟨this.1, this.2.symm, hctxs, hset⟩
    · rintro ⟨hc, hr, hctxs, hset⟩
      exact ⟨by rw [hes, hc, hr], hctxs, hset⟩

/-- With the hooks off, an accepted connection gets a context. -/
theorem disabled_accept : ¬ ∀ (env : Env) (w : World) (fuel : Nat) (c : Call) (es : Events) (w' : World) (r : Ret),
    Run (sem env) w (hooked false fuel c) es w' r → Transparent c w es w' r := by
  intro hall
  have hreturns : World.oneSocket.Returns (.accept 5 0 0) ⟨6, .eintr⟩ := by decide
  have honce : Once Env.sockets World.oneSocket _ (.accept 5 0 0) _ _ := once_accept 0
  obtain ⟨es, -, h⟩ := honce.returns ⟨6, .eintr⟩ hreturns
  have hctxs := (hall _ _ 0 (.accept 5 0 0) _ _ _ h).creates
  revert hctxs
  decide

end Sylar.Calls
