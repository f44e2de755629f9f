import Sylar.Hook.World

/-!
# Connecting

What `connect_with_timeout` makes of the outcomes of what it calls. A scene has them all: what `connect_f` and
`addEvent` answer, what ends the wait, and what `getsockopt(SO_ERROR)` says, which has no error to report for as long as
a connection is in progress.

- `Ends`: how a program ends in a scene; `ends_op`, `ends_arm`, `ends_disarm`, `ends_connected`: its parts;
- `ends_blocking`: a `connect` on a managed socket;
- `established_iff`: a `connect` that returns `0` has a connection, unless it went to the `SO_ERROR` check without
  having seen the socket writable.
-/

namespace Sylar.Connecting

open Trans Hook Calls

/-- What resumes the fiber: the socket is writable, the callback of the timer, or `close()` of the descriptor, which
triggers all its events. -/
inductive Wake where
  | writable
  | timer
  | closed
deriving DecidableEq, Repr

/-- The outcomes of what a `connect` calls. `late` says that the callback of the timer has run before the test of
`cancelled`, though it was not what ended the wait. -/
structure Scene where
  connectF : Ret
  addEvent : Option Errno
  wake : Wake
  late : Bool
  soError : Ret × Option Errno

/-- `tinfo->cancelled` after the wait. -/
def Scene.cancelled (sc : Scene) : Option Errno :=
  if sc.wake = .timer ∨ sc.late = true then some .etimedout else none

/-- What an operation can answer. -/
def allowed (w : World) (sc : Scene) : (o : Op) → o.Reply → Prop
  | .orig _, r => r = sc.connectF
  | .soError _, r => r = sc.soError
  | .addEvent _ _, rt => rt = sc.addEvent
  | .cancelled, x => x = sc.cancelled
  | o, r => Calls.allowed w o r

/-- What an operation does: `yield` returns for what ends the wait. -/
def next (sc : Scene) (woken : Option Wake) : (o : Op) → o.Reply → Option Wake
  | .yield, _ => some sc.wake
  | _, _ => woken

/-- **The meaning of the operations** in a scene. The state is what has resumed the fiber, if it has waited. -/
def sem (w : World) (sc : Scene) : Sem Op Op.Reply (Option Wake) where
  allowed _ := allowed w sc
  next := next sc

variable {w : World} {sc : Scene} {woken t : Option Wake} {r : Ret} {fd : Int} {timeout : Option Nat}

/-! ## How a program ends -/

def Ends (w : World) (sc : Scene) (woken : Option Wake) (p : Hooked Ret) (t : Option Wake) (r : Ret) : Prop :=
  ∃ es, Run (sem w sc) woken p es t r

@[simp] theorem ends_ret {a : Ret} : Ends w sc woken (.ret a) t r ↔ t = woken ∧ r = a := by
  simp [Ends]

@[simp] theorem ends_op {o : Op} {k : o.Reply → Hooked Ret} :
    Ends w sc woken (.op o k) t r ↔ ∃ a, allowed w sc o a ∧ Ends w sc (next sc woken o a) (k a) t r := by
  constructor
  · rintro ⟨es, h⟩
    obtain ⟨a, es', ha, -, h'⟩ := run_op.mp h
    exact ⟨a, ha, es', h'⟩
  · rintro ⟨a, ha, es, h⟩
    exact ⟨_, .op ha h⟩

/-- An operation with one possible answer. -/
theorem ends_answer {o : Op} {k : o.Reply → Hooked Ret} {v : o.Reply} (hv : ∀ a, allowed w sc o a ↔ a = v) :
    Ends w sc woken (.op o k) t r ↔ Ends w sc (next sc woken o v) (k v) t r := by
  simp only [ends_op, hv, exists_eq_left]

theorem ends_arm {event : Hook.Event} {k : Unit → Hooked Ret} :
    Ends w sc woken (arm timeout fd event >>= k) t r ↔ Ends w sc woken (k ()) t r := by
  cases timeout with
  | none => exact Iff.rfl
  | some ms => exact ends_op.trans ⟨fun ⟨_, _, h⟩ => h, fun h => ⟨(), trivial, h⟩⟩

theorem ends_disarm {k : Unit → Hooked Ret} :
    Ends w sc woken (disarm timeout >>= k) t r ↔ Ends w sc woken (k ()) t r := by
  cases timeout with
  | none => exact Iff.rfl
  | some ms => exact ends_op.trans ⟨fun ⟨_, _, h⟩ => h, fun h => ⟨(), trivial, h⟩⟩

theorem ends_yield {p : Hooked Ret} :
    Ends w sc woken (.op .yield fun _ => p) t r ↔ Ends w sc (some sc.wake) p t r :=
  ends_op.trans ⟨fun ⟨_, _, h⟩ => h, fun h => ⟨.eintr, trivial, h⟩⟩

/-- What the `SO_ERROR` check returns. -/
def Scene.verdict (sc : Scene) : Ret :=
  if sc.soError.1.n = -1 then sc.soError.1
  else
    match sc.soError.2 with
    | some error => ⟨-1, error⟩
    | none => ⟨0, sc.soError.1.errno⟩

/-- `getsockopt` succeeds, and there is no error. -/
def Scene.Clean (sc : Scene) : Prop := sc.soError.1.n ≠ -1 ∧ sc.soError.2 = none

theorem verdict_eq_zero : sc.verdict.n = 0 ↔ sc.Clean := by
  unfold Scene.verdict Scene.Clean
  split
  · simp_all
  · cases sc.soError.2 <;> simp_all

theorem ends_connected : Ends w sc woken (connected fd) t r ↔ t = woken ∧ r = sc.verdict := by
  simp only [connected, Prog.call_bind, ends_op, allowed, exists_eq_left, next, Scene.verdict, beq_iff_eq]
  split
  · exact ends_ret
  · cases sc.soError.2 <;> exact ends_ret

/-! ## Where the connection is in progress -/

/-- **A `connect` on a managed socket** that is blocking to its user returns what `connect_f` returns, or else waits. -/
theorem ends_blocking {i : Nat} {addr : Ptr} {addrlen : Nat} (hi : w.socket fd = some i)
    (hb : (w.ctx i).userNonblock = false) :
    Ends w sc none (connectWithTimeout true fd addr addrlen timeout) t r ↔
      if sc.connectF.failed einprogress then
        match sc.addEvent with
        | none => t = some sc.wake ∧ r = match sc.cancelled with
          | some e => ⟨-1, e⟩
          | none => sc.verdict
        | some _ => t = none ∧ r = sc.verdict
      else t = none ∧ r = sc.connectF := by
  obtain ⟨hreg, hso⟩ := Option.filter_eq_some_iff.mp hi
  have hclosed : (w.ctx i).isClosed = false := by simp_all
  have hsock : (w.ctx i).isSocket = true := by simp_all
  refine (ends_answer (v := some i) fun a => by simp [allowed, Calls.allowed, hreg]).trans ?_
  refine (ends_answer (v := false) fun a => by simp [allowed, Calls.allowed, hclosed]).trans ?_
  refine (ends_answer (v := true) fun a => by simp [allowed, Calls.allowed, hsock]).trans ?_
  refine (ends_answer (v := false) fun a => by simp [allowed, Calls.allowed, hb]).trans ?_
  refine (ends_answer (v := sc.connectF) fun a => Iff.rfl).trans ?_
  dsimp only [Prog.bind]
  cases hpend : sc.connectF.failed einprogress with
  | false => exact ends_ret
  | true =>
    simp only [Bool.not_true, Bool.false_eq_true, if_false, if_true, Prog.call_bind]
    rw [ends_arm, ends_answer (v := sc.addEvent) fun a => Iff.rfl]
    cases sc.addEvent with
    | some e =>
      dsimp only
      rw [ends_disarm]
      exact ends_connected
    | none =>
      refine ends_yield.trans (ends_disarm.trans ?_)
      rw [ends_answer (v := sc.cancelled) fun a => Iff.rfl]
      cases sc.cancelled with
      | some e => exact ends_ret
      | none => exact ends_connected

/-- Every other `connect` returns what `connect_f` returns, or fails. -/
theorem ends_passed {addr : Ptr} {addrlen : Nat} (hb : ¬ w.Blocking fd)
    (h : Ends w sc none (connectWithTimeout true fd addr addrlen timeout) t r) : r = sc.connectF ∨ r.n = -1 := by
  have hpass : ∀ {u : Option Wake}, Ends w sc u (orig (.connect fd addr addrlen)) t r → r = sc.connectF := fun h =>
    (ends_ret.mp ((ends_answer (v := sc.connectF) fun a => Iff.rfl).mp h)).2
  replace h := (ends_answer (v := w.reg fd) fun a => by simp [allowed, Calls.allowed]).mp h
  cases hreg : w.reg fd with
  | none =>
    rw [hreg] at h
    obtain ⟨-, rfl⟩ := ends_ret.mp h
    exact Or.inr rfl
  | some i =>
    rw [hreg] at h
    replace h := (ends_answer (v := (w.ctx i).isClosed) fun a => Iff.rfl).mp h
    cases hclosed : (w.ctx i).isClosed with
    | true =>
      rw [hclosed] at h
      obtain ⟨-, rfl⟩ := ends_ret.mp h
      exact Or.inr rfl
    | false =>
      rw [hclosed] at h
      replace h := (ends_answer (v := (w.ctx i).isSocket) fun a => Iff.rfl).mp h
      cases hsock : (w.ctx i).isSocket with
      | false =>
        rw [hsock] at h
        exact Or.inl (hpass h)
      | true =>
        rw [hsock] at h
        replace h := (ends_answer (v := (w.ctx i).userNonblock) fun a => Iff.rfl).mp h
        cases hnb : (w.ctx i).userNonblock with
        | true =>
          rw [hnb] at h
          exact Or.inl (hpass h)
        | false => exact absurd ⟨i, Option.filter_eq_some_iff.mpr ⟨hreg, by simp [hclosed, hsock]⟩, hnb⟩ hb

/-! ## Success -/

/-- What a success is to stand for: `connect_f` has succeeded, or the socket has become writable during the wait, and
there was no error. -/
def Established (sc : Scene) (woken : Option Wake) : Prop :=
  sc.connectF.n = 0 ∨ woken = some .writable ∧ sc.Clean

/-- The `SO_ERROR` check finds no error, for a connection in progress: `addEvent` has failed, or the descriptor is being
closed. -/
structure Fooled (w : World) (sc : Scene) (fd : Int) : Prop where
  blocking : w.Blocking fd
  pending : sc.connectF.failed einprogress = true
  clean : sc.Clean
  unseen : sc.addEvent ≠ none ∨ sc.wake = .closed ∧ sc.late = false

/-- Such a `connect` succeeds without a connection. -/
theorem Fooled.succeeds (h : Fooled w sc fd) (addr : Ptr) (addrlen : Nat) (timeout : Option Nat) :
    ∃ t r, Ends w sc none (connectWithTimeout true fd addr addrlen timeout) t r ∧ r.n = 0 ∧ ¬ Established sc t := by
  obtain ⟨⟨i, hi, hb⟩, hpend, hclean, hunseen⟩ := h
  have hfailed : sc.connectF.n ≠ 0 := by
    intro hzero
    simp [Ret.failed, hzero] at hpend
  obtain ⟨t, ht, hend⟩ : ∃ t, t ≠ some .writable ∧
      Ends w sc none (connectWithTimeout true fd addr addrlen timeout) t sc.verdict := by
    simp only [ends_blocking hi hb, hpend, if_true]
    cases hadd : sc.addEvent with
    | some e => exact ⟨none, nofun, rfl, trivial⟩
    | none =>
      obtain hne | ⟨hwake, hlate⟩ := hunseen
      · exact absurd hadd hne
      · exact ⟨some .closed, nofun, by rw [hwake], by simp [Scene.cancelled, hwake, hlate]⟩
  refine ⟨t, sc.verdict, hend, verdict_eq_zero.mpr hclean, ?_⟩
  rintro (hzero | ⟨hwoken, -⟩)
  · exact hfailed hzero
  · exact ht hwoken

/-- Every other `connect` on a managed socket that is blocking to its user succeeds with one. -/
theorem established_blocking {addr : Ptr} {addrlen : Nat} (hb : w.Blocking fd) (hfooled : ¬ Fooled w sc fd)
    (h : Ends w sc none (connectWithTimeout true fd addr addrlen timeout) t r) (hr : r.n = 0) : Established sc t := by
  obtain ⟨i, hi, hnb⟩ := hb
  have hend := (ends_blocking hi hnb).mp h
  split at hend
  · rename_i hpend
    cases hadd : sc.addEvent with
    | some e =>
      rw [hadd] at hend
      obtain ⟨rfl, rfl⟩ := hend
      exact absurd ⟨⟨i, hi, hnb⟩, hpend, verdict_eq_zero.mp hr, Or.inl (by simp [hadd])⟩ hfooled
    | none =>
      rw [hadd] at hend
      obtain ⟨rfl, rfl⟩ := hend
      cases hcancelled : sc.cancelled with
      | some e => simp [hcancelled] at hr
      | none =>
        rw [hcancelled] at hr
        have hclean := verdict_eq_zero.mp hr
        obtain ⟨hwake, hlate⟩ : sc.wake ≠ .timer ∧ sc.late = false := by
          simpa [Scene.cancelled] using hcancelled
        cases hw : sc.wake with
        | writable => exact Or.inr ⟨rfl, hclean⟩
        | timer => exact absurd hw hwake
        | closed => exact absurd ⟨⟨i, hi, hnb⟩, hpend, hclean, Or.inr ⟨hw, hlate⟩⟩ hfooled
  · obtain ⟨-, rfl⟩ := hend
    exact Or.inl hr

/-- **A success is a connection**, if and only if the `SO_ERROR` check is not made while it is in progress. -/
theorem established_iff (w : World) (sc : Scene) (fd : Int) (addr : Ptr) (addrlen : Nat) (timeout : Option Nat) :
    (∀ es t r, Run (sem w sc) none (connectWithTimeout true fd addr addrlen timeout) es t r → r.n = 0 →
      Established sc t) ↔ ¬ Fooled w sc fd := by
  constructor
  · intro hall hfooled
    obtain ⟨t, r, ⟨es, h⟩, hr, hnot⟩ := hfooled.succeeds addr addrlen timeout
    exact hnot (hall es t r h hr)
  · intro hfooled es t r h hr
    by_cases hb : w.Blocking fd
    · exact established_blocking hb hfooled ⟨es, h⟩ hr
    · obtain rfl | hfail := ends_passed hb ⟨es, h⟩
      · exact Or.inl hr
      · omega

/-- A connection in progress on a socket for which `addEvent` fails. -/
def Scene.refused : Scene where
  connectF := ⟨-1, einprogress⟩
  addEvent := some .ebadf
  wake := .writable
  late := false
  soError := (⟨0, einprogress⟩, none)

/-- It counts as established. -/
theorem refused_succeeds : ¬ ∀ w sc fd addr addrlen timeout es t r,
    Run (sem w sc) none (connectWithTimeout true fd addr addrlen timeout) es t r → r.n = 0 → Established sc t := by
  intro hall
  have hfooled : Fooled World.oneSocket .refused 5 :=
    ⟨⟨0, rfl, rfl⟩, rfl, ⟨by decide, rfl⟩, Or.inl nofun⟩
  obtain ⟨t, r, ⟨es, h⟩, hr, hnot⟩ := hfooled.succeeds 0 16 none
  exact hnot (hall _ _ _ _ _ _ es t r h hr)

end Sylar.Connecting
