import Sylar.Hook.UserFlags

/-!
# Failing calls

The calls that change a context do so before they know what the original function returns, and the calls that make
something of its result do not look whether there is one.

- `once_setting`, `once_socket`, `once_close`: the calls besides those of `Control`;
- `failed_unchanged`: a failing call leaves the context alone just where it asks for what the context has;
- `errors_reported`: a failure is reported, except by `F_GETFL` on a managed socket that is blocking to its user.
-/

namespace Sylar.Calls

open Trans Hook

variable {env : Env} {w w' : World} {es : Events} {r : Ret} {fd : Int} {fuel : Nat} {c : Call}

/-- Every original call can fail. -/
theorem returns_failure (w : World) (c : Call) (e : Errno) : w.Returns c ⟨-1, e⟩ := by
  unfold World.Returns
  split
  · exact Or.inl rfl
  · split
    · exact Or.inl rfl
    · trivial

/-! ## Calls that change a context -/

/-- The value that `setsockopt` computes for a timeout. -/
def timeoOf (tv : Timeval) : Option Nat := timeoutOf (.ofInt 64 (tv.sec * 1000 + tv.usec.tdiv 1000))

/-- The calls that change the context of a managed socket. -/
inductive Setting where
  | control (k : Control)
  | timeo (so : TimeoutSo) (optval : Ptr) (tv : Timeval) (optlen : Nat)
deriving DecidableEq, Repr

namespace Setting

def call (fd : Int) : Setting → Call
  | .control k => k.call fd
  | .timeo so optval tv optlen => .setsockopt fd .solSocket (.timeo so) optval tv optlen

/-- The context that a call makes of another one. -/
def apply (x : FdCtx) : Setting → FdCtx
  | .control k => x.setUserNonblock k.nonblock
  | .timeo so _ tv _ => x.setTimeout so (timeoOf tv)

/-- The context has what the call asks for. -/
def Agrees (x : FdCtx) : Setting → Prop
  | .control k => x.userNonblock = k.nonblock
  | .timeo so _ tv _ => x.getTimeout so = timeoOf tv

/-- The original call. -/
def passed (w : World) (fd : Int) : Setting → Call
  | .control (.setfl arg) => .fcntl fd (.setfl (w.setflArg fd arg))
  | k => k.call fd

theorem apply_eq_self {x : FdCtx} {k : Setting} : k.apply x = x ↔ k.Agrees x := by
  cases k with
  | control k =>
    constructor
    · intro h
      exact (congrArg (·.userNonblock) h).symm
    · intro h
      have h : x.userNonblock = k.nonblock := h
      simp only [apply, FdCtx.setUserNonblock, ← h]
  | timeo so optval tv optlen =>
    constructor
    · intro h
      have hget := congrArg (fun y : FdCtx => y.getTimeout so) h
      cases so <;> exact hget.symm
    · intro h
      have h : x.getTimeout so = timeoOf tv := h
      simp only [apply, ← h]
      cases so <;> rfl

end Setting

theorem setUser_eq {v : Bool} {i : Nat} (hi : w.socket fd = some i) :
    w.setUser fd v = w.setCtx i ((w.ctx i).setUserNonblock v) := by
  unfold World.setUser
  rw [hi]

/-- **A call that changes a context** changes it first. -/
theorem once_setting (env : Env) (fuel : Nat) {i : Nat} (k : Setting) (hi : w.socket fd = some i) :
    Once env w (hooked true fuel (k.call fd)) (k.passed w fd)
      ((w.setCtx i (k.apply (w.ctx i))).kernel env (k.passed w fd)) id := by
  cases k with
  | control k =>
    cases k with
    | setfl arg =>
      have h := once_setfl env w fd arg
      rwa [setUser_eq hi] at h
    | fionbio arg value =>
      have h := once_fionbio env w fd arg value
      rwa [setUser_eq hi] at h
  | timeo so optval tv optlen =>
    have hreg : w.reg fd = some i := (Option.filter_eq_some_iff.mp hi).1
    refine Once.get ?_
    rw [hreg]
    exact Once.silent (a := ()) (fun r => by simp [allowed]) rfl (fun r => Iff.rfl) once_orig

/-- Whatever the original function returns, the context is changed. -/
theorem setting_ctx {i : Nat} {k : Setting} (hi : w.socket fd = some i)
    (h : Run (sem env) w (hooked true fuel (k.call fd)) es w' r) : w'.ctx i = k.apply (w.ctx i) := by
  obtain ⟨o, -, -, rfl, -⟩ := (once_setting env fuel k hi).only _ _ _ h
  rw [kernel_ctx]
  exact Function.update_self ..

/-- A failing call. -/
theorem setting_fails (env : Env) (fuel : Nat) {i : Nat} (k : Setting) (hi : w.socket fd = some i) :
    ∃ es w' r, Run (sem env) w (hooked true fuel (k.call fd)) es w' r ∧ ∀ p ∈ originals es, p.2.n = -1 := by
  obtain ⟨es, hes, h⟩ := (once_setting env fuel k hi).returns _ (returns_failure w _ .eintr)
  refine ⟨es, _, _, h, ?_⟩
  rw [hes]
  simp

/-- **A failing call leaves the context alone** if and only if it asks for what the context has. -/
theorem failed_unchanged (env : Env) (w : World) (fd : Int) (fuel : Nat) (k : Setting) {i : Nat}
    (hi : w.socket fd = some i) :
    (∀ es w' r, Run (sem env) w (hooked true fuel (k.call fd)) es w' r → (∀ p ∈ originals es, p.2.n = -1) →
      w'.ctx i = w.ctx i) ↔ k.Agrees (w.ctx i) := by
  rw [← Setting.apply_eq_self]
  constructor
  · intro hkept
    obtain ⟨es, w', r, h, hfail⟩ := setting_fails env fuel k hi
    exact (setting_ctx hi h).symm.trans (hkept es w' r h hfail)
  · intro hself es w' r h _
    exact (setting_ctx hi h).trans hself

/-- `F_SETFL` without `O_NONBLOCK` on a socket that is blocking to its user. -/
theorem failed_unchanged_setfl : ∃ es w' r,
    Run (sem Env.sockets) World.oneSocket (hooked true 0 (.fcntl 5 (.setfl 2#32))) es w' r ∧
      (∀ p ∈ originals es, p.2.n = -1) ∧ w'.ctx 0 = World.oneSocket.ctx 0 := by
  have hi : World.oneSocket.socket 5 = some 0 := rfl
  have hagrees : Setting.Agrees (World.oneSocket.ctx 0) (.control (.setfl 2#32)) := by
    change false = nonblock 2#32
    decide
  obtain ⟨es, w', r, h, hfail⟩ := setting_fails Env.sockets 0 (.control (.setfl 2#32)) hi
  exact ⟨es, w', r, h, hfail,
    (failed_unchanged Env.sockets World.oneSocket 5 0 (.control (.setfl 2#32)) hi).mpr hagrees es w' r h hfail⟩

/-- A `timeval` with a million microseconds, which the kernel refuses, is a timeout of a second from then on. -/
theorem refused_timeout : ¬ ∀ (env : Env) (w : World) (fd : Int) (fuel : Nat) (k : Setting) (i : Nat),
    w.socket fd = some i → ∀ es w' r, Run (sem env) w (hooked true fuel (k.call fd)) es w' r →
      (∀ p ∈ originals es, p.2.n = -1) → w'.ctx i = w.ctx i := by
  intro hall
  have hi : World.oneSocket.socket 5 = some 0 := rfl
  obtain ⟨es, w', r, h, hfail⟩ := setting_fails Env.sockets 0 (.timeo .rcv 1 ⟨0, 1000000⟩ 16) hi
  have hsame := (setting_ctx hi h).symm.trans (hall _ _ _ _ _ _ hi _ _ _ h hfail)
  cases congrArg (·.rcvTimeout) hsame

/-! ## Calls that report -/

theorem once_socket (env : Env) (w : World) (hook : Bool) (domain type protocol : Int) :
    ∃ after, Once env w (socket hook domain type protocol) (.socket domain type protocol) after id := by
  cases hook with
  | false => exact ⟨_, once_orig⟩
  | true =>
    refine ⟨fun o => if o.n = -1 then w.kernel env (.socket domain type protocol) o
      else (w.kernel env (.socket domain type protocol) o).register env o.n, once_bind fun o => ?_⟩
    by_cases ho : o.n = -1
    · simp [ho]
    · refine ⟨[⟨w.kernel env (.socket domain type protocol) o, .get o.n true,
        some (((w.kernel env (.socket domain type protocol) o).reg o.n).getD
          (w.kernel env (.socket domain type protocol) o).ctxs)⟩], rfl, fun es' w' r => ?_⟩
      simp [ho, sem, allowed, next]

theorem once_close (env : Env) (w : World) (hook : Bool) (fd : Int) :
    ∃ after, Once env w (close hook fd) (.close fd) after id := by
  cases hook with
  | false => exact ⟨_, once_orig⟩
  | true =>
    cases hreg : w.reg fd with
    | none =>
      refine ⟨w.kernel env (.close fd), Once.get ?_⟩
      rw [hreg]
      exact once_orig
    | some i =>
      refine ⟨(w.unregister fd).kernel env (.close fd), Once.get ?_⟩
      rw [hreg]
      have hdel : Once env w (del fd >>= fun _ => orig (.close fd)) (.close fd)
          ((w.unregister fd).kernel env (.close fd)) id :=
        Once.silent (a := ()) (fun r => by simp [allowed]) rfl (fun r => Iff.rfl) once_orig
      refine Once.prior ⟨true, trivial⟩ fun b _ => ⟨rfl, fun r => Iff.rfl, ?_⟩
      cases b with
      | true => exact Once.silent (a := ()) (fun r => by simp [allowed]) rfl (fun r => Iff.rfl) hdel
      | false => exact hdel

theorem once_setsockopt (env : Env) (w : World) (hook : Bool) (fd : Int) (level : Level) (optname : OptName)
    (optval : Ptr) (tv : Timeval) (optlen : Nat) :
    ∃ after, Once env w (setsockopt hook fd level optname optval tv optlen)
      (.setsockopt fd level optname optval tv optlen) after id := by
  cases hook with
  | false => exact ⟨_, once_orig⟩
  | true =>
    cases level with
    | other level => exact ⟨_, once_orig⟩
    | solSocket =>
      cases optname with
      | soError | other => exact ⟨_, once_orig⟩
      | timeo so =>
        cases hreg : w.reg fd with
        | none =>
          refine ⟨w.kernel env (.setsockopt fd .solSocket (.timeo so) optval tv optlen), Once.get ?_⟩
          rw [hreg]
          exact once_orig
        | some i =>
          refine ⟨(w.setCtx i ((w.ctx i).setTimeout so (timeoOf tv))).kernel env
            (.setsockopt fd .solSocket (.timeo so) optval tv optlen), Once.get ?_⟩
          rw [hreg]
          exact Once.silent (a := ()) (fun r => by simp [allowed]) rfl (fun r => Iff.rfl) once_orig

/-- The calls that work on descriptors without waiting. -/
def Call.isControl : Call → Bool
  | .fcntl .. | .ioctl .. | .setsockopt .. | .getsockopt .. | .socket .. | .close _ => true
  | _ => false

/-- The call clears `O_NONBLOCK` in whatever the original function has returned: `F_GETFL` on a managed socket that is
blocking to its user. -/
def Masked (w : World) : Call → Prop
  | .fcntl fd (.getfl _) => w.Blocking fd
  | _ => False

/-- What `F_GETFL` makes of a failure. -/
theorem getflRet_failure {o : Ret} (ho : o.n = -1) :
    (w.getflRet fd o).n = -1 ↔ ¬ w.Blocking fd := by
  unfold World.getflRet World.Blocking
  cases hs : w.socket fd with
  | none => simp [ho]
  | some i =>
    rw [ho]
    cases hu : (w.ctx i).userNonblock with
    | true | false =>
      simp only [Option.mem_def, Option.some.injEq, exists_eq_left', hu]
      decide

/-- Each of them is one original call, whose failure it reports unless it is masked. -/
theorem once_control (env : Env) (w : World) (hook : Bool) (fuel : Nat) (hc : c.isControl = true) :
    ∃ c' after ret, Once env w (hooked hook fuel c) c' after ret ∧
      ∀ o : Ret, o.n = -1 → ((ret o).n = -1 ↔ ¬ Masked w c) := by
  cases c with
  | socket domain type protocol =>
    obtain ⟨after, h⟩ := once_socket env w hook domain type protocol
    exact ⟨_, after, id, h, fun o ho => by simp [ho, Masked]⟩
  | close fd =>
    obtain ⟨after, h⟩ := once_close env w hook fd
    exact ⟨_, after, id, h, fun o ho => by simp [ho, Masked]⟩
  | fcntl fd cmd =>
    cases cmd with
    | getfl extra =>
      refine ⟨_, _, _, once_getfl extra, fun o ho => ?_⟩
      simp [getflRet_failure ho, Masked]
    | setfl arg => exact ⟨_, _, id, once_setfl .., fun o ho => by simp [ho, Masked]⟩
    | _ => exact ⟨_, _, id, once_orig, fun o ho => by simp [ho, Masked]⟩
  | ioctl fd request arg value =>
    cases request with
    | fionbio => exact ⟨_, _, id, once_fionbio .., fun o ho => by simp [ho, Masked]⟩
    | other request => exact ⟨_, _, id, once_orig, fun o ho => by simp [ho, Masked]⟩
  | getsockopt fd level optname optval optlen => exact ⟨_, _, id, once_orig, fun o ho => by simp [ho, Masked]⟩
  | setsockopt fd level optname optval tv optlen =>
    obtain ⟨after, h⟩ := once_setsockopt env w hook fd level optname optval tv optlen
    exact ⟨_, after, id, h, fun o ho => by simp [ho, Masked]⟩
  | _ => cases hc

/-- **Failures are reported**: where the original function fails, so does the hooked call, whatever is registered for
the number, unless the call is `F_GETFL` on a managed socket that is blocking to its user. -/
theorem errors_reported (env : Env) (w : World) (hook : Bool) (fuel : Nat) (c : Call) (hc : c.isControl = true) :
    (∀ es w' r, Run (sem env) w (hooked hook fuel c) es w' r → (∀ p ∈ originals es, p.2.n = -1) → r.n = -1) ↔
      ¬ Masked w c := by
  obtain ⟨c', after, ret, honce, hret⟩ := once_control env w hook fuel hc
  constructor
  · intro hall
    obtain ⟨es, hes, h⟩ := honce.returns _ (returns_failure w c' .eintr)
    have hfail : ∀ p ∈ originals es, p.2.n = -1 := by
      rw [hes]
      simp
    exact (hret _ rfl).mp (hall es _ _ h hfail)
  · intro hmask es w' r h hfail
    obtain ⟨o, -, hes, -, rfl⟩ := honce.only _ _ _ h
    have ho : o.n = -1 := hfail (c', o) (by rw [hes]; exact List.mem_singleton_self _)
    exact (hret o ho).mpr hmask

/-- `socket()`. -/
theorem errors_reported_socket : ∃ es w' r,
    Run (sem Env.sockets) World.oneSocket (hooked true 0 (.socket 2 1 0)) es w' r ∧
      (∀ p ∈ originals es, p.2.n = -1) ∧ r.n = -1 := by
  obtain ⟨after, honce⟩ := once_socket Env.sockets World.oneSocket true 2 1 0
  obtain ⟨es, hes, h⟩ := honce.returns ⟨-1, .eintr⟩ (Or.inl rfl)
  have hfail : ∀ p ∈ originals es, p.2.n = -1 := by
    rw [hes]
    simp
  exact ⟨es, _, _, h, hfail,
    (errors_reported Env.sockets World.oneSocket true 0 (.socket 2 1 0) rfl).mpr id es _ _ h hfail⟩

/-- The context of a number that is not open any more: `F_GETFL` makes `-2049` of `-1`. -/
theorem error_masked : ¬ ∀ (env : Env) (w : World) (hook : Bool) (fuel : Nat) (c : Call), c.isControl = true →
    ∀ es w' r, Run (sem env) w (hooked hook fuel c) es w' r → (∀ p ∈ originals es, p.2.n = -1) → r.n = -1 := by
  intro hall
  let w : World := World.oneSocket.closeFile 5
  have honce : Once Env.sockets w (fcntl 5 (.getfl none)) (.fcntl 5 (.getfl none)) (fun _ => w) (w.getflRet 5) :=
    once_getfl none
  obtain ⟨es, hes, h⟩ := honce.returns ⟨-1, .ebadf⟩ (Or.inl rfl)
  have hfail : ∀ p ∈ originals es, p.2.n = -1 := by
    rw [hes]
    simp
  exact absurd (hall Env.sockets w true 0 (.fcntl 5 (.getfl none)) rfl es w _ h hfail) (by decide)

end Sylar.Calls
