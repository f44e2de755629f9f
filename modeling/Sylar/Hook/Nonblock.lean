import Sylar.Hook.Control

/-!
# The mode of a managed socket

`do_io` relies on the kernel's `O_NONBLOCK` of a managed socket: with it set, no original call blocks the thread. Two
calls of a user reach the flag. `fcntl` passes on the system's choice in place of the user's; `ioctl` passes on what it
is given.

- `Controls`: sequences of successful calls of the two; `exists_controls`: every sequence can happen;
- `control_next`: what one of them does to the flag;
- `nonblocking_iff`: the flag stays set just when `FIONBIO` is never called with `0`;
- `ioOp_next`: what `do_io` calls leaves the flag alone.
-/

namespace Sylar.Calls

open Trans Hook

variable {env : Env} {w w' : World} {es : Events} {r : Ret} {fd : Int}

/-- A managed socket that the system holds non-blocking. -/
def Managed (w : World) (fd : Int) : Prop := ∃ c, w.socket fd = some c ∧ (w.ctx c).sysNonblock = true

/-- The kernel's `O_NONBLOCK`. -/
def Nonblocking (w : World) (fd : Int) : Prop := ∃ v, w.flags fd = some v ∧ nonblock v = true

/-! ## Control calls -/

/-- The calls that set the mode of a descriptor. -/
inductive Control where
  | setfl (arg : BitVec 32)
  | fionbio (arg : Ptr) (value : BitVec 32)
deriving DecidableEq, Repr

def Control.call (fd : Int) : Control → Call
  | .setfl arg => .fcntl fd (.setfl arg)
  | .fionbio arg value => .ioctl fd .fionbio arg value

/-- `FIONBIO` with `0`. -/
def Control.Clears : Control → Prop
  | .setfl _ => False
  | .fionbio _ value => value = 0#32

instance (k : Control) : Decidable k.Clears := by
  cases k <;> dsimp only [Control.Clears] <;> infer_instance

/-- **Sequences** of hooked calls that succeed, on threads with the hooks on or off, each with the world after it. -/
inductive Controls (env : Env) (fd : Int) : World → List (Control × World) → Prop
  | nil (w : World) : Controls env fd w []
  | cons {w w' : World} {k : Control} {ks : List (Control × World)} {hook : Bool} {fuel : Nat} {es : Events} {r : Ret} :
      Run (sem env) w (hooked hook fuel (k.call fd)) es w' r → r.n ≠ -1 → Controls env fd w' ks →
      Controls env fd w ((k, w') :: ks)

/-- Every sequence can happen. -/
theorem exists_controls (env : Env) (fd : Int) :
    ∀ (ks : List Control) (w : World), ∃ h, h.map Prod.fst = ks ∧ Controls env fd w h
  | [], w => ⟨[], rfl, .nil w⟩
  | k :: ks, w => by
    have hrun : ∃ es w' r, Run (sem env) w (hooked true 0 (k.call fd)) es w' r ∧ r.n ≠ -1 := by
      cases k with
      | setfl arg =>
        obtain ⟨es, -, h⟩ := (once_setfl env w fd arg).returns ⟨0, .eintr⟩ trivial
        exact ⟨es, _, _, h, by simp⟩
      | fionbio arg value =>
        obtain ⟨es, -, h⟩ := (once_fionbio env w fd arg value).returns ⟨0, .eintr⟩ trivial
        exact ⟨es, _, _, h, by simp⟩
    obtain ⟨es, w', r, h, hr⟩ := hrun
    obtain ⟨hist, hks, hhist⟩ := exists_controls env fd ks w'
    exact ⟨(k, w') :: hist, by rw [List.map_cons, hks], .cons h hr hhist⟩

/-! ## One call -/

@[simp] theorem nonblock_fionbio {value v : BitVec 32} : nonblock (fionbio value v) = true ↔ value ≠ 0#32 := by
  unfold fionbio
  split <;> simp [*]

@[simp] theorem flags_modifyFlags {g : BitVec 32 → BitVec 32} : (w.modifyFlags fd g).flags fd = (w.flags fd).map g := by
  unfold World.modifyFlags World.flags
  cases hf : w.file fd with
  | none => simp [hf]
  | some f => simp [hf, List.getElem?_modify]

@[simp] theorem flags_setUser {fd' : Int} {v : Bool} : (w.setUser fd v).flags fd' = w.flags fd' := by
  unfold World.setUser
  split <;> rfl

/-- The user's flag does not matter for what is managed. -/
theorem Managed.setUser {v : Bool} (h : Managed w fd) : Managed (w.setUser fd v) fd := by
  obtain ⟨c, hc, hs⟩ := h
  refine ⟨c, ?_, ?_⟩
  · obtain ⟨hreg, hso⟩ := Option.filter_eq_some_iff.mp hc
    unfold World.setUser
    rw [hc]
    exact Option.filter_eq_some_iff.mpr ⟨hreg, by simpa [World.setCtx, FdCtx.setUserNonblock] using hso⟩
  · unfold World.setUser
    rw [hc]
    simpa [World.setCtx, FdCtx.setUserNonblock] using hs

theorem Managed.kernel {c : Call} (h : Managed w fd) : Managed (w.kernel env c r) fd := by
  unfold Managed World.socket at h ⊢
  rwa [kernel_reg, kernel_ctx]

/-- **One successful call** keeps the socket managed, and the flag unless it is `FIONBIO` with `0`. -/
theorem control_next {k : Control} {hook : Bool} {fuel : Nat} (hm : Managed w fd) (hf : Nonblocking w fd)
    (h : Run (sem env) w (hooked hook fuel (k.call fd)) es w' r) (hr : r.n ≠ -1) :
    Managed w' fd ∧ (Nonblocking w' fd ↔ ¬ k.Clears) := by
  obtain ⟨v, hv, -⟩ := hf
  cases k with
  | setfl arg =>
    obtain ⟨o, -, -, rfl, rfl⟩ := (once_setfl ..).only _ _ _ h
    obtain ⟨c, hc, hs⟩ := id hm
    refine ⟨hm.setUser.kernel, fun _ => id, fun _ => ⟨w.setflArg fd arg, ?_, ?_⟩⟩
    · simp [World.kernel, hr, hv]
    · simp [World.setflArg, hc, hs]
  | fionbio arg value =>
    obtain ⟨o, -, -, rfl, rfl⟩ := (once_fionbio ..).only _ _ _ h
    refine ⟨hm.setUser.kernel, ?_⟩
    simp [Nonblocking, World.kernel, if_neg hr, hv, Control.Clears]

/-! ## Original calls of `do_io` -/

/-- The functions that go through `do_io`. -/
def Call.isIo : Call → Bool
  | .accept .. | .read .. | .readv .. | .recv .. | .recvfrom .. | .recvmsg .. => true
  | .write .. | .writev .. | .send .. | .sendto .. | .sendmsg .. => true
  | _ => false

/-- Nothing is remembered, and every operation of `do_io` is admitted. -/
def ioMonitor (c : Call) : Monitor Op Op.Reply Unit where
  ok _ := IoOp c
  next _ _ _ := ()

/-- **An operation of `do_io`** leaves the flag alone. -/
theorem ioOp_next {c : Call} {o : Op} {a : o.Reply} (hc : c.isIo = true) (ho : IoOp c o) (hw : Nonblocking w fd)
    (ha : allowed w o a) : Nonblocking (next env w o a) fd := by
  obtain ⟨v, hv, hn⟩ := hw
  refine ⟨v, ?_, hn⟩
  cases o with
  | orig c' =>
    obtain rfl : c' = c := ho
    cases c' with
    | accept fd' addr addrlen =>
      obtain ha | ⟨hn, ha⟩ : a.n = -1 ∨ 0 ≤ a.n ∧ w.opened a.n = false := ha
      · simpa [next, World.kernel, ha] using hv
      · have hfd : fd ≠ a.n := by
          intro heq
          rw [← heq] at ha
          simp_all [World.opened, World.flags]
        -- the new file is none of those so far
        have hflags : (w.openFile a.n (env.flags (.accept fd' addr addrlen))).flags fd = w.flags fd := by
          obtain ⟨f, hfile, hfiles⟩ := Option.bind_eq_some_iff.mp hv
          have hlt : f < w.files.length := (List.getElem?_eq_some_iff.mp hfiles).1
          simp [World.openFile, World.flags, hfd, hfile, List.getElem?_append_left hlt]
        rw [← hv, ← hflags]
        simp [next, World.kernel, show a.n ≠ -1 by omega]
    | read | readv | recv | recvfrom | recvmsg | write | writev | send | sendto | sendmsg => exact hv
    | _ => cases hc
  | get fd' autoCreate =>
    obtain rfl : autoCreate = false := ho
    exact hv
  | setUserNonblock | setTimeout | del | getIom | cancelAll | addTimer | soError | getSysNonblock => exact ho.elim
  | _ => exact hv

/-- An original call made while the flag is not set, which can block the thread. -/
def MayBlock (fd : Int) (e : Trans.Event Op Op.Reply World) : Prop :=
  (original e).isSome = true ∧ ¬ Nonblocking e.before fd

/-- If the user has the socket blocking, no original call of `do_io` can block the thread. -/
def IoSafe (env : Env) (w : World) (fd : Int) : Prop :=
  ∀ c ∈ w.socket fd, (w.ctx c).userNonblock = false → ∀ hook fuel fn io es w' r, (fn fd).isIo = true →
    Run (sem env) w (doIo hook fuel fd fn io) es w' r → ∀ e ∈ es, ¬ MayBlock fd e

theorem Nonblocking.ioSafe (hw : Nonblocking w fd) : IoSafe env w fd := by
  intro c _ _ hook fuel fn io es w' r hfn h e he hb
  have hobeys : Obeys (ioMonitor (fn fd)) (fun _ _ => True) () (doIo hook fuel fd fn io) :=
    obeys_doIo (fun _ _ ho => ho) (fun _ _ => trivial) (fun _ _ => trivial) ()
  obtain ⟨-, hes⟩ := h.keeps (I := fun _ w => Nonblocking w fd) (fun _ _ _ _ ho hw ha => ioOp_next hfn ho hw ha)
    hobeys hw
  obtain ⟨_, hbefore, -⟩ := hes e he
  exact hb.2 hbefore

/-! ## Sequences -/

/-- **The mode the hooks rely on** is kept by a sequence of successful calls just when none of them is `FIONBIO` with
`0`. -/
theorem nonblocking_iff {ks : List (Control × World)} (h : Controls env fd w ks) (hm : Managed w fd)
    (hf : Nonblocking w fd) :
    (∀ p ∈ ks, Nonblocking p.2 fd ∧ IoSafe env p.2 fd) ↔ ∀ p ∈ ks, ¬ p.1.Clears := by
  induction h with
  | nil w => simp
  | cons hrun hr _ ih =>
    obtain ⟨hm', hf'⟩ := control_next hm hf hrun hr
    simp only [List.forall_mem_cons]
    constructor
    · rintro ⟨⟨hk, -⟩, hks⟩
      exact ⟨hf'.mp hk, (ih hm' hk).mp hks⟩
    · rintro ⟨hk, hks⟩
      have hk := hf'.mpr hk
      exact ⟨⟨hk, hk.ioSafe⟩, (ih hm' hk).mpr hks⟩

theorem managed_oneSocket : Managed World.oneSocket 5 := ⟨0, rfl, rfl⟩

theorem nonblocking_oneSocket : Nonblocking World.oneSocket 5 := ⟨2050#32, rfl, by decide⟩

/-- `F_SETFL` without `O_NONBLOCK`, `FIONBIO` with `1`, and `F_SETFL` with `O_NONBLOCK`. -/
theorem nonblocking_iff_mixed : ∃ ks : List (Control × World),
    ks.map Prod.fst = [.setfl 2#32, .fionbio 0 1#32, .setfl 2050#32] ∧
      ∀ p ∈ ks, Nonblocking p.2 5 ∧ IoSafe Env.sockets p.2 5 := by
  obtain ⟨ks, hks, h⟩ := exists_controls Env.sockets 5
    [.setfl 2#32, .fionbio 0 1#32, .setfl 2050#32] World.oneSocket
  have hno : ∀ k ∈ [Control.setfl 2#32, .fionbio 0 1#32, .setfl 2050#32], ¬ k.Clears := by decide
  refine ⟨ks, hks, (nonblocking_iff h managed_oneSocket nonblocking_oneSocket).mpr fun p hp => hno _ ?_⟩
  exact hks ▸ List.mem_map_of_mem hp

/-- `FIONBIO` with `0` clears the flag. -/
theorem nonblocking_cleared : ¬ ∀ (env : Env) (fd : Int) (w : World) (ks : List (Control × World)),
    Controls env fd w ks → Managed w fd → Nonblocking w fd →
      ∀ p ∈ ks, Nonblocking p.2 fd ∧ IoSafe env p.2 fd := by
  intro hall
  obtain ⟨ks, hks, h⟩ := exists_controls Env.sockets 5 [.fionbio 0 0#32] World.oneSocket
  have hkept := hall _ _ _ _ h managed_oneSocket nonblocking_oneSocket
  cases h with
  | nil w => cases hks
  | cons hrun hr h =>
    obtain ⟨rfl, -⟩ := List.cons.inj hks
    have hnext := (control_next managed_oneSocket nonblocking_oneSocket hrun hr).2
    exact hnext.mp (hkept _ List.mem_cons_self).1 rfl

end Sylar.Calls
