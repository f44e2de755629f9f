import Sylar.Hook.Disabled
import Sylar.Hook.Failures

/-!
# Calls that are passed on

Two places where a hooked call has nothing to add, and what it makes of the original call there.

- `passes_on`: `fcntl` with a command other than `F_SETFL` and `F_GETFL`, where the `default` case has no argument;
- `unmanaged`: a descriptor without a context, which all calls but `connect` pass on.
-/

namespace Sylar.Calls

open Trans Hook

variable {env : Env} {w : World} {fd : Int} {fuel : Nat} {c : Call}

/-! ## Other commands of `fcntl` -/

/-- The command of an `fcntl`, without its argument. -/
inductive Command where
  | setfl
  | getfl
  | int (cmd : IntCmd)
  | plain (cmd : PlainCmd)
  | lock (cmd : LockCmd)
  | owner (cmd : OwnerCmd)
  | other (cmd : Int)
deriving DecidableEq, Repr

namespace Fcntl

def command : Fcntl → Command
  | .setfl _ => .setfl
  | .getfl _ => .getfl
  | .int cmd _ => .int cmd
  | .plain cmd _ => .plain cmd
  | .lock cmd _ => .lock cmd
  | .owner cmd _ => .owner cmd
  | .other cmd _ => .other cmd

/-- What is passed after the command. -/
def arg : Fcntl → Option Word
  | .setfl arg | .int _ arg => some (.int arg)
  | .getfl extra | .plain _ extra => extra
  | .lock _ arg | .owner _ arg => some (.ptr arg)
  | .other _ arg => arg

end Fcntl

/-- Whether the kernel's command takes an argument; `takes` says so of the commands that no case names. -/
def Command.takesArg (takes : Int → Bool) : Command → Bool
  | .setfl | .int _ | .lock _ | .owner _ => true
  | .getfl | .plain _ => false
  | .other cmd => takes cmd

/-- One original call with the same command and, where the command takes an argument, the same argument. -/
def PassesOn (takes : Int → Bool) (env : Env) (w : World) (hook : Bool) (fuel : Nat) (fd : Int) (cmd : Fcntl) : Prop :=
  ∃ cmd' : Fcntl, cmd'.command = cmd.command ∧ (cmd.command.takesArg takes = true → cmd'.arg = cmd.arg) ∧
    Once env w (hooked hook fuel (.fcntl fd cmd)) (.fcntl fd cmd') (w.kernel env (.fcntl fd cmd')) id

/-- The argument of a command that takes one and that no case names. -/
def Fcntl.Dropped (takes : Int → Bool) : Fcntl → Prop
  | .other cmd (some _) => takes cmd = true
  | _ => False

/-- A program that makes one original call makes no other one. -/
theorem Once.call_eq {p : Hooked Ret} {c' : Call} {after after' : Ret → World} {ret ret' : Ret → Ret}
    (h : Once env w p c after ret) (h' : Once env w p c' after' ret') : c = c' := by
  obtain ⟨es, hes, hr⟩ := h.returns _ (returns_failure w c .eintr)
  obtain ⟨o, -, hes', -, -⟩ := h'.only _ _ _ hr
  have heq := hes.symm.trans hes'
  simp only [List.cons.injEq, Prod.mk.injEq] at heq
  exact heq.1.1

/-- The original call of a command that no case names has no argument. -/
theorem Fcntl.Dropped.not_passesOn {takes : Int → Bool} {hook : Bool} {cmd : Fcntl} (hd : cmd.Dropped takes) :
    ¬ PassesOn takes env w hook fuel fd cmd := by
  rintro ⟨cmd', -, harg, h⟩
  cases cmd with
  | other cmd arg =>
    cases arg with
    | none => exact hd
    | some arg =>
      have honce : Once env w (hooked hook fuel (.fcntl fd (.other cmd (some arg)))) (.fcntl fd (.other cmd none))
          (w.kernel env (.fcntl fd (.other cmd none))) id := once_orig
      have heq : Call.fcntl fd (.other cmd none) = .fcntl fd cmd' := honce.call_eq h
      injection heq with _ heq
      have harg' := harg hd
      rw [← heq] at harg'
      cases harg'
  | _ => exact hd

/-- **Other commands are passed on**, except one that takes an argument and that no case names: its argument is
dropped. -/
theorem passes_on (takes : Int → Bool) (env : Env) (w : World) (hook : Bool) (fuel : Nat) (fd : Int) (cmd : Fcntl)
    (hcmd : cmd.command ≠ .setfl ∧ cmd.command ≠ .getfl) :
    PassesOn takes env w hook fuel fd cmd ↔ ¬ cmd.Dropped takes := by
  cases cmd with
  | setfl arg => exact absurd rfl hcmd.1
  | getfl extra => exact absurd rfl hcmd.2
  | int | lock | owner => exact ⟨fun _ => id, fun _ => ⟨_, rfl, fun _ => rfl, once_orig⟩⟩
  | plain cmd extra => exact ⟨fun _ => id, fun _ => ⟨.plain cmd none, rfl, nofun, once_orig⟩⟩
  | other cmd arg =>
    refine ⟨fun h hd => hd.not_passesOn h, fun hkept => ⟨.other cmd none, rfl, fun htakes => ?_, once_orig⟩⟩
    cases arg with
    | none => rfl
    | some arg => exact absurd htakes hkept

/-- `F_DUPFD`. -/
theorem passes_on_dupfd : PassesOn (fun _ => false) Env.sockets World.oneSocket true 0 5 (.int .dupfd 10#32) :=
  (passes_on _ _ _ _ _ _ (.int .dupfd 10#32) ⟨nofun, nofun⟩).mpr id

/-- `F_ADD_SEALS`, which is `1033` and takes an `int`. -/
theorem seals_dropped : ¬ ∀ takes env w hook fuel fd (cmd : Fcntl), cmd.command ≠ .setfl ∧ cmd.command ≠ .getfl →
    PassesOn takes env w hook fuel fd cmd := by
  intro hall
  have hd : (Fcntl.other 1033 (some (.int 1#32))).Dropped (fun cmd => cmd == 1033) := rfl
  exact hd.not_passesOn (hall _ Env.sockets World.oneSocket true 0 5 _ ⟨nofun, nofun⟩)

/-! ## Descriptors without a context -/

/-- The descriptor of a `connect`, of a call that goes through `do_io`, of a `close`, an `ioctl` or a `setsockopt`. -/
def Call.descriptor : Call → Option Int
  | .connect fd _ _ | .close fd | .ioctl fd _ _ _ | .setsockopt fd _ _ _ _ _ | .accept fd _ _ => some fd
  | .read fd _ _ | .readv fd _ _ | .recv fd _ _ _ | .recvfrom fd _ _ _ _ _ | .recvmsg fd _ _ => some fd
  | .write fd _ _ | .writev fd _ _ | .send fd _ _ _ | .sendto fd _ _ _ _ _ | .sendmsg fd _ _ => some fd
  | _ => none

def Call.isConnect : Call → Bool
  | .connect .. => true
  | _ => false

theorem once_unmanaged (hreg : w.reg fd = none) {k : Option Nat → Hooked Ret} (hk : k none = orig c) :
    Once env w (.op (.get fd false) k) c (w.kernel env c) id := by
  refine Once.get ?_
  rw [hreg, hk]
  exact once_orig

theorem setUser_unmanaged {v : Bool} (hreg : w.reg fd = none) : w.setUser fd v = w := by
  unfold World.setUser World.socket
  rw [hreg]
  rfl

/-- `connect` calls nothing. -/
theorem connect_unmanaged {addr : Ptr} {addrlen : Nat} {es : Events} {w' : World} {r : Ret} (hreg : w.reg fd = none)
    (h : Run (sem env) w (connect true fd addr addrlen) es w' r) : originals es = [] ∧ r = ⟨-1, .ebadf⟩ := by
  obtain ⟨o, es', ho, rfl, h'⟩ := run_op.mp h
  obtain rfl : o = none := ho.trans hreg
  obtain ⟨rfl, -, rfl⟩ := run_ret.mp h'
  exact ⟨rfl, rfl⟩

/-- **A descriptor without a context is left alone** by all of these calls but `connect`: they are one original call
with their own arguments and its result, and do nothing else, except that `accept` makes a context for its result. -/
theorem unmanaged (env : Env) (w : World) (fuel : Nat) (fd : Int) (c : Call) (hreg : w.reg fd = none)
    (hc : c.descriptor = some fd) :
    Once env w (hooked true fuel c) c (fun o => w.after env o c) id ↔ c.isConnect = false := by
  cases c with
  | connect fd' addr addrlen =>
    obtain rfl : fd' = fd := Option.some.inj hc
    refine ⟨fun h => ?_, nofun⟩
    obtain ⟨es, hes, hr⟩ := h.returns _ (returns_failure w _ .eintr)
    rw [(connect_unmanaged hreg hr).1] at hes
    cases hes
  | read | readv | recv | recvfrom | recvmsg | write | writev | send | sendto | sendmsg | close =>
    obtain rfl := Option.some.inj hc
    exact ⟨fun _ => rfl, fun _ => once_unmanaged hreg rfl⟩
  | accept fd' addr addrlen =>
    obtain rfl : fd' = fd := Option.some.inj hc
    refine ⟨fun _ => rfl, fun _ => Once.get ?_⟩
    rw [hreg]
    exact once_accept fuel
  | ioctl fd' request arg value =>
    obtain rfl : fd' = fd := Option.some.inj hc
    refine ⟨fun _ => rfl, fun _ => ?_⟩
    cases request with
    | fionbio =>
      simp only [World.after, setUser_unmanaged hreg]
      exact once_unmanaged hreg rfl
    | other request => exact once_orig
  | setsockopt fd' level optname optval tv optlen =>
    obtain rfl : fd' = fd := Option.some.inj hc
    refine ⟨fun _ => rfl, fun _ => ?_⟩
    cases level with
    | other level => exact once_orig
    | solSocket =>
      cases optname with
      | timeo so => exact once_unmanaged hreg rfl
      | soError | other => exact once_orig
  | _ => cases hc

/-- A `read` on a file. -/
theorem unmanaged_read : Once Env.sockets World.oneSocket (hooked true 1 (.read 3 0 10)) (.read 3 0 10)
    (fun o => World.oneSocket.after Env.sockets o (.read 3 0 10)) id :=
  (unmanaged _ _ 1 3 (.read 3 0 10) rfl rfl).mpr rfl

/-- A `connect` on a socket that was made with the hooks off. -/
theorem connect_refused : ¬ ∀ env w fuel fd (c : Call), w.reg fd = none → c.descriptor = some fd →
    Once env w (hooked true fuel c) c (fun o => w.after env o c) id := by
  intro hall
  have h := hall Env.sockets World.oneSocket 0 3 (.connect 3 0 16) rfl rfl
  obtain ⟨es, hes, hr⟩ := h.returns ⟨0, .eintr⟩ trivial
  rw [(connect_unmanaged rfl hr).1] at hes
  cases hes

end Sylar.Calls
