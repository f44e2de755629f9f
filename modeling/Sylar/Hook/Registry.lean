import Mathlib.Data.Fintype.Basic
import Mathlib.Data.Fintype.Prod
import Sylar.Hook.World

/-!
# The contexts of new descriptors

Threads make hooked calls, each with the hooks on or off, and their operations interleave. A hooked `close` removes the
context before the number goes back to the kernel, so that whoever gets the number next finds none. A `close_f` while
there is a context, or while a thread that got the number has not registered it yet, leaves the next owner with the
state of this one.

- `obeys_hooked`: `get(fd, true)` follows the `socket_f` or `accept_f` that returned `fd`;
- `next_mono`: what the other operations do to the registry and the descriptors;
- `Inv`: contexts are for open descriptors, and a descriptor to be registered is open, has none, and is one thread's;
- `fresh_settings`: where `close_f` leaves nothing behind, a registered descriptor has the default settings.
-/

namespace Sylar.Calls

open Trans Hook

variable {env : Env} {w : World} {fd : Int}

/-! ## Where descriptors are registered -/

/-- Whether the function returns a new socket. -/
def Call.obtains : Call → Bool
  | .socket .. | .accept .. => true
  | _ => false

/-- The number that an operation has obtained. -/
def obtained : (o : Op) → o.Reply → Option Int
  | .orig c, r => if c.obtains ∧ r.n ≠ -1 then some r.n else none
  | _, _ => none

/-- A number is registered right after it has been obtained. -/
def regMonitor : Monitor Op Op.Reply (Option Int) where
  ok g o := ∀ fd, o = .get fd true → g = some fd
  next _ o r := obtained o r

theorem regMonitor_ioOp {c : Call} {g : Option Int} {o : Op} (ho : IoOp c o) : regMonitor.ok g o := by
  rintro fd rfl
  cases ho

theorem regMonitor_ok {g : Option Int} {o : Op} (ho : ∀ fd, o ≠ .get fd true) : regMonitor.ok g o :=
  fun fd h => (ho fd h).elim

theorem obeys_orig {L : Option Int → Ret → Prop} {g : Option Int} {c : Call}
    (hL : ∀ r, L (obtained (.orig c) r) r) : Obeys regMonitor L g (orig c) :=
  ⟨regMonitor_ok (by simp), hL⟩

theorem obeys_openSocket {g : Option Int} : Obeys regMonitor (fun _ _ => True) g (openSocket fd) := by
  refine ⟨regMonitor_ok (by simp), fun c => ?_⟩
  cases c with
  | none => trivial
  | some c =>
    refine ⟨regMonitor_ok (by simp), fun b => ?_⟩
    dsimp only [Prog.bind]
    split
    · trivial
    · refine ⟨regMonitor_ok (by simp), fun b => ?_⟩
      dsimp only [Prog.bind]
      split <;> trivial

theorem obeys_connected {g : Option Int} : Obeys regMonitor (fun _ _ => True) g (connected fd) := by
  refine ⟨regMonitor_ok (by simp), fun r => ?_⟩
  dsimp only [Prog.bind]
  split
  · trivial
  · split <;> trivial

theorem obeys_connect {g : Option Int} {hook : Bool} {addr : Ptr} {addrlen : Nat} {timeout : Option Nat} :
    Obeys regMonitor (fun _ _ => True) g (connectWithTimeout hook fd addr addrlen timeout) := by
  have horig : ∀ g, Obeys regMonitor (fun _ _ => True) g (orig (.connect fd addr addrlen)) :=
    fun g => obeys_orig fun _ => trivial
  have hdisarm : ∀ g, Obeys regMonitor (fun _ _ => True) g (disarm timeout) :=
    obeys_disarm (c := .connect fd addr addrlen) fun _ _ => regMonitor_ioOp
  refine obeys_connects (K := fun _ => True) (fun g o _ ho => ⟨?_, fun _ => trivial⟩) (fun _ _ => trivial)
    (fun g _ => horig g) (fun g _ n => ?_) trivial
  · exact regMonitor_ioOp (c := .connect fd addr addrlen) ho.ioOp
  refine Obeys.bind (L := fun _ _ => True) (fun _ _ _ => ?_)
    (obeys_arm (c := .connect fd addr addrlen) (fun _ _ => regMonitor_ioOp) _)
  refine ⟨regMonitor_ok (by simp), fun rt => ?_⟩
  cases rt with
  | some e => exact Obeys.bind (L := fun _ _ => True) (fun _ _ _ => obeys_connected) (hdisarm _)
  | none =>
    refine ⟨regMonitor_ok (by simp), fun _ => ?_⟩
    change Obeys regMonitor _ _ (disarm timeout >>= _)
    refine Obeys.bind (L := fun _ _ => True) (fun _ _ _ => ?_) (hdisarm _)
    refine ⟨regMonitor_ok (by simp), fun x => ?_⟩
    cases x with
    | some e => trivial
    | none => exact obeys_connected

theorem obeys_fcntl {g : Option Int} : ∀ cmd, Obeys regMonitor (fun _ _ => True) g (fcntl fd cmd)
  | .setfl arg => by
    refine Obeys.bind (L := fun _ _ => True) (fun _ c _ => ?_) obeys_openSocket
    cases c with
    | none => exact obeys_orig fun _ => trivial
    | some c =>
      refine ⟨regMonitor_ok (by simp), fun _ => ⟨regMonitor_ok (by simp), fun b => ?_⟩⟩
      dsimp only [Prog.bind]
      split <;> exact obeys_orig fun _ => trivial
  | .getfl extra => by
    simp only [fcntl, Prog.call_bind, obeys_op]
    refine ⟨regMonitor_ok (by simp), fun r => ?_⟩
    refine Obeys.bind (L := fun _ _ => True) (fun _ c _ => ?_) obeys_openSocket
    cases c with
    | none => trivial
    | some c =>
      refine ⟨regMonitor_ok (by simp), fun b => ?_⟩
      dsimp only
      split <;> trivial
  | .int .. | .plain .. | .lock .. | .owner .. | .other .. => obeys_orig fun _ => trivial

theorem obeys_ioctl {g : Option Int} {arg : Ptr} {value : BitVec 32} :
    ∀ request, Obeys regMonitor (fun _ _ => True) g (ioctl fd request arg value)
  | .fionbio => by
    refine Obeys.bind (L := fun _ _ => True) (fun _ c _ => ?_) obeys_openSocket
    cases c with
    | none => exact obeys_orig fun _ => trivial
    | some c => exact ⟨regMonitor_ok (by simp), fun _ => obeys_orig fun _ => trivial⟩
  | .other request => obeys_orig fun _ => trivial

theorem obeys_setsockopt {g : Option Int} {hook : Bool} {level : Level} {optname : OptName} {optval : Ptr}
    {tv : Timeval} {optlen : Nat} :
    Obeys regMonitor (fun _ _ => True) g (setsockopt hook fd level optname optval tv optlen) := by
  unfold setsockopt
  split
  · exact obeys_orig fun _ => trivial
  split
  · refine ⟨regMonitor_ok (by simp), fun c => ?_⟩
    cases c with
    | none => exact obeys_orig fun _ => trivial
    | some c => exact ⟨regMonitor_ok (by simp), fun _ => obeys_orig fun _ => trivial⟩
  · exact obeys_orig fun _ => trivial

theorem obeys_close {g : Option Int} {hook : Bool} : Obeys regMonitor (fun _ _ => True) g (close hook fd) := by
  have horig : ∀ g, Obeys regMonitor (fun _ _ => True) g (orig (.close fd)) := fun g => obeys_orig fun _ => trivial
  unfold close
  split
  · exact horig _
  refine ⟨regMonitor_ok (by simp), fun c => ?_⟩
  cases c with
  | none => exact horig _
  | some c =>
    refine ⟨regMonitor_ok (by simp), fun b => ?_⟩
    dsimp only [Prog.bind]
    split
    · exact ⟨regMonitor_ok (by simp), fun _ => ⟨regMonitor_ok (by simp), fun _ => horig _⟩⟩
    · exact ⟨regMonitor_ok (by simp), fun _ => horig _⟩

/-- A call that sets a timer and yields. -/
theorem obeys_timer {g : Option Int} {hook : Bool} {c : Call} {ms : Nat} :
    Obeys regMonitor (fun _ _ => True) g (if !hook then orig c else do
      addTimer ms
      pure ⟨0, ← yield⟩) := by
  split
  · exact obeys_orig fun _ => trivial
  · exact ⟨regMonitor_ok (by simp), fun _ => ⟨regMonitor_ok (by simp), fun _ => trivial⟩⟩

theorem obeys_socket {g : Option Int} {hook : Bool} {domain type protocol : Int} :
    Obeys regMonitor (fun _ _ => True) g (socket hook domain type protocol) := by
  unfold socket
  split
  · exact obeys_orig fun _ => trivial
  refine ⟨regMonitor_ok (by simp), fun r => ?_⟩
  dsimp only [Prog.bind]
  split
  · trivial
  · rename_i hr
    refine ⟨fun fd hfd => ?_, fun _ => trivial⟩
    cases hfd
    exact if_pos ⟨rfl, by simpa using hr⟩

theorem obeys_accept {g : Option Int} {hook : Bool} {fuel : Nat} {addr addrlen : Ptr} :
    Obeys regMonitor (fun _ _ => True) g (accept hook fuel fd addr addrlen) := by
  refine Obeys.bind (L := fun g r => 0 ≤ r.n → g = some r.n) (fun g r hr => ?_)
    (obeys_doIo (fun _ _ => regMonitor_ioOp) (fun _ _ hn => ?_) (fun _ n hn => ?_) g)
  · split
    · rename_i hn
      refine ⟨fun fd hfd => ?_, fun _ => trivial⟩
      cases hfd
      exact hr hn
    · trivial
  · exact absurd hn (show ¬ (0 : Int) ≤ -1 by decide)
  · exact if_pos ⟨rfl, by omega⟩

/-- **A hooked call** registers only what it has just obtained. -/
theorem obeys_hooked (hook : Bool) (fuel : Nat) (c : Call) :
    Obeys regMonitor (fun _ _ => True) none (hooked hook fuel c) := by
  cases c with
  | socket domain type protocol => exact obeys_socket
  | accept fd addr addrlen => exact obeys_accept
  | sleep | usleep | nanosleep => exact obeys_timer
  | connect fd addr addrlen => exact obeys_connect
  | close fd => exact obeys_close
  | fcntl fd cmd => exact obeys_fcntl cmd
  | ioctl fd request arg value => exact obeys_ioctl request
  | getsockopt fd level optname optval optlen => exact obeys_orig fun _ => trivial
  | setsockopt fd level optname optval tv optlen => exact obeys_setsockopt
  | _ =>
    dsimp only [hooked]
    exact obeys_doIo (L := fun _ _ => True) (fun _ _ => regMonitor_ioOp) (fun _ _ => trivial) (fun _ _ => trivial) none

/-! ## What the operations do to the registry -/

@[simp] theorem modifyFlags_file {g : BitVec 32 → BitVec 32} : (w.modifyFlags fd g).file = w.file := by
  unfold World.modifyFlags
  split <;> rfl

theorem register_reg (hreg : w.reg fd = none) :
    (w.register env fd).reg = Function.update w.reg fd (some w.ctxs) := by
  simp [World.register, hreg, World.create, World.setCtx]

theorem register_file : (w.register env fd).file = w.file := by
  unfold World.register
  split
  · simp [World.create, World.setCtx]
  · rfl

@[simp] theorem opened_openFile {n : Int} {v : BitVec 32} :
    (w.openFile n v).opened fd = (decide (fd = n) || w.opened fd) := by
  unfold World.opened World.openFile
  by_cases h : fd = n <;> simp [h]

@[simp] theorem opened_modifyFlags {fd' : Int} {g : BitVec 32 → BitVec 32} :
    (w.modifyFlags fd' g).opened fd = w.opened fd := by
  unfold World.opened
  rw [modifyFlags_file]

/-- **A number is obtained** where no descriptor is open, and is open then. -/
theorem obtained_next (env : Env) {o : Op} {r : o.Reply} (ha : allowed w o r) (hr : obtained o r = some fd) :
    w.opened fd = false ∧ (next env w o r).reg = w.reg ∧
      ∀ fd', (next env w o r).opened fd' = (decide (fd' = fd) || w.opened fd') := by
  cases o with
  | orig c =>
    obtain ⟨⟨hc, hn⟩, hfd⟩ := Option.ite_none_right_eq_some.mp hr
    cases hfd
    cases c with
    | socket | accept =>
      obtain ⟨-, hopened⟩ := (show r.n = -1 ∨ 0 ≤ r.n ∧ w.opened r.n = false from ha).resolve_left hn
      exact ⟨hopened, kernel_reg, fun fd' => by simp [next, World.kernel, hn]⟩
    | _ => cases hc
  | _ => cases hr

/-- **The other operations**, apart from `close_f` and `get(fd, true)`, open descriptors and remove contexts at most. -/
theorem next_mono {o : Op} {r : o.Reply} (ha : allowed w o r) (hget : ∀ fd, o ≠ .get fd true)
    (hclose : ∀ fd, o ≠ .orig (.close fd)) (fd : Int) :
    (w.reg fd = none → (next env w o r).reg fd = none) ∧ (w.opened fd = true → (next env w o r).opened fd = true) := by
  cases o with
  | orig c =>
    refine ⟨fun h => (congrFun kernel_reg fd).trans h, fun h => ?_⟩
    cases c with
    | close fd' => exact (hclose fd' rfl).elim
    | socket | accept =>
      simp only [next, World.kernel]
      split <;> simp [h]
    | fcntl fd' cmd =>
      cases cmd with
      | setfl arg =>
        simp only [next, World.kernel]
        split <;> simp [h]
      | int cmd arg =>
        simp only [next, World.kernel]
        split
        · rename_i hd
          -- the kernel hands out a number that is not open
          obtain ⟨-, hn⟩ := (show r.n = -1 ∨ 0 ≤ r.n ∧ w.opened r.n = false by
            simpa [allowed, World.Returns, Call.opens, hd.1] using ha).resolve_left hd.2
          have hne : fd ≠ r.n := fun heq => by simp [← heq, h] at hn
          simpa [World.dupFile, World.opened, hne] using h
        · exact h
      | _ => exact h
    | ioctl fd' request arg value =>
      cases request with
      | fionbio =>
        simp only [next, World.kernel]
        split <;> simp [h]
      | other request => exact h
    | _ => exact h
  | get fd' autoCreate =>
    cases autoCreate with
    | true => exact (hget fd' rfl).elim
    | false => exact ⟨id, id⟩
  | del fd' =>
    refine ⟨fun h => ?_, id⟩
    by_cases hfd : fd = fd' <;> simp [next, World.unregister, hfd, h]
  | _ => exact ⟨id, id⟩

/-! ## Threads -/

/-- A call of a thread with its hook flag. -/
structure Job where
  hook : Bool
  fuel : Nat
  call : Call
deriving DecidableEq, Repr

def Job.body (j : Job) : Hooked Ret := hooked j.hook j.fuel j.call

/-- **Threads that make hooked calls**, from a registry without contexts. -/
abbrev threads (T : Type) [DecidableEq T] (env : Env) :
    System (Pool Op Op.Reply Ret World T Job) (PoolAct Op Op.Reply T Job) :=
  pool (sem env) Job.body fun w => ∀ fd, w.reg fd = none

variable {T : Type} {p : Pool Op Op.Reply Ret World T Job} {a : PoolAct Op Op.Reply T Job}

/-- `close_f(fd)` is called while there is no context for `fd`, and while no thread is about to register it. -/
def LeavesNothing (p : Pool Op Op.Reply Ret World T Job) : PoolAct Op Op.Reply T Job → Prop
  | .op t _ =>
    match p.head t with
    | some (.orig (.close fd)) => p.shared.reg fd = none ∧ ∀ u, p.head u ≠ some (.get fd true)
    | _ => True
  | _ => True

instance [Fintype T] (p : Pool Op Op.Reply Ret World T Job) (a : PoolAct Op Op.Reply T Job) :
    Decidable (LeavesNothing p a) := by
  cases a with
  | op t answer =>
    dsimp only [LeavesNothing]
    split <;> infer_instance
  | _ => exact isTrue trivial

/-- Contexts are for open descriptors. A descriptor that a thread is about to register is open and has no context, and
no other thread is about to register it. -/
structure Inv (p : Pool Op Op.Reply Ret World T Job) : Prop where
  opened : ∀ fd, p.shared.reg fd ≠ none → p.shared.opened fd = true
  pending : ∀ t fd, p.head t = some (.get fd true) → p.shared.opened fd = true ∧ p.shared.reg fd = none
  once : ∀ t u fd, p.head t = some (.get fd true) → p.head u = some (.get fd true) → t = u

/-- Where nothing happens to the descriptors and the contexts, threads may cease to be about to register. -/
theorem Inv.mono {p' : Pool Op Op.Reply Ret World T Job} (h : Inv p) (hw : p'.shared = p.shared)
    (hhead : ∀ u fd, p'.head u = some (.get fd true) → p.head u = some (.get fd true)) : Inv p' where
  opened fd hreg := by
    rw [hw] at hreg ⊢
    exact h.opened fd hreg
  pending u fd hu := by
    rw [hw]
    exact h.pending u fd (hhead u fd hu)
  once u v fd hu hv := h.once u v fd (hhead u fd hu) (hhead v fd hv)

/-- A thread obtains a number. -/
theorem Inv.obtain {p' : Pool Op Op.Reply Ret World T Job} {t : T} {n : Int} (h : Inv p)
    (hn : p.shared.opened n = false) (hreg : p'.shared.reg = p.shared.reg)
    (hopened : ∀ fd, p'.shared.opened fd = (decide (fd = n) || p.shared.opened fd))
    (hhead : ∀ u fd, p'.head u = some (.get fd true) → u = t ∧ n = fd ∨ p.head u = some (.get fd true)) : Inv p' where
  opened fd hfd := by
    rw [hopened, h.opened fd (by rwa [← hreg]), Bool.or_true]
  pending u fd hu := by
    rw [hopened, hreg]
    obtain ⟨-, rfl⟩ | hu := hhead u fd hu
    · refine ⟨by simp, Classical.byContradiction fun hr => ?_⟩
      rw [h.opened n hr] at hn
      cases hn
    · obtain ⟨ho, hr⟩ := h.pending u fd hu
      exact ⟨by rw [ho, Bool.or_true], hr⟩
  once u v fd hu hv := by
    have hnot : ∀ {v}, p.head v = some (.get n true) → False := fun hv => by
      rw [(h.pending _ n hv).1] at hn
      cases hn
    obtain ⟨rfl, rfl⟩ | hu := hhead u fd hu
    · obtain ⟨rfl, -⟩ | hv := hhead v n hv
      · rfl
      · exact (hnot hv).elim
    · obtain ⟨-, rfl⟩ | hv := hhead v fd hv
      · exact (hnot hu).elim
      · exact h.once u v fd hu hv

/-- The thread `t` registers its number. -/
theorem Inv.register {p' : Pool Op Op.Reply Ret World T Job} {t : T} {n : Int} (h : Inv p)
    (ht : p.head t = some (.get n true)) (hw : p'.shared = p.shared.register env n)
    (hhead : ∀ u fd, p'.head u = some (.get fd true) → u ≠ t ∧ p.head u = some (.get fd true)) : Inv p' := by
  obtain ⟨hn, hr⟩ := h.pending t n ht
  have hopened : ∀ fd, p'.shared.opened fd = p.shared.opened fd := fun fd => by
    rw [hw, World.opened, register_file]
    rfl
  refine ⟨fun fd hfd => ?_, fun u fd hu => ?_, fun u v fd hu hv => h.once u v fd (hhead u fd hu).2 (hhead v fd hv).2⟩
  · rw [hopened]
    rw [hw, register_reg hr] at hfd
    by_cases hfn : fd = n
    · exact hfn ▸ hn
    · rw [Function.update_of_ne hfn] at hfd
      exact h.opened fd hfd
  · obtain ⟨hut, hu⟩ := hhead u fd hu
    obtain ⟨ho, hreg⟩ := h.pending u fd hu
    have hfn : fd ≠ n := fun heq => hut (h.once u t n (heq ▸ hu) ht)
    rw [hopened, hw, register_reg hr, Function.update_of_ne hfn]
    exact ⟨ho, hreg⟩

/-- `close_f` leaves nothing behind. -/
theorem Inv.close {p' : Pool Op Op.Reply Ret World T Job} {n : Int} (h : Inv p) (hn : p.shared.reg n = none)
    (hnot : ∀ u, p.head u ≠ some (.get n true)) (hw : p'.shared = p.shared.closeFile n)
    (hhead : ∀ u fd, p'.head u = some (.get fd true) → p.head u = some (.get fd true)) : Inv p' := by
  have hopened : ∀ fd, fd ≠ n → p'.shared.opened fd = p.shared.opened fd := fun fd hfn => by
    simp [hw, World.opened, World.closeFile, hfn]
  have hreg : p'.shared.reg = p.shared.reg := by rw [hw]; rfl
  refine ⟨fun fd hfd => ?_, fun u fd hu => ?_, fun u v fd hu hv => h.once u v fd (hhead u fd hu) (hhead v fd hv)⟩
  · rw [hreg] at hfd
    rw [hopened fd fun heq => hfd (heq ▸ hn)]
    exact h.opened fd hfd
  · have hu := hhead u fd hu
    rw [hreg, hopened fd fun heq => hnot u (heq ▸ hu)]
    exact h.pending u fd hu

/-- Every other operation. -/
theorem Inv.other {p' : Pool Op Op.Reply Ret World T Job} (h : Inv p)
    (hnext : ∀ fd, (p.shared.reg fd = none → p'.shared.reg fd = none) ∧
      (p.shared.opened fd = true → p'.shared.opened fd = true))
    (hhead : ∀ u fd, p'.head u = some (.get fd true) → p.head u = some (.get fd true)) : Inv p' where
  opened fd hfd := (hnext fd).2 (h.opened fd fun hr => hfd ((hnext fd).1 hr))
  pending u fd hu := by
    obtain ⟨ho, hr⟩ := h.pending u fd (hhead u fd hu)
    exact ⟨(hnext fd).2 ho, (hnext fd).1 hr⟩
  once u v fd hu hv := h.once u v fd (hhead u fd hu) (hhead v fd hv)

variable [DecidableEq T]

/-- **Every step** keeps the invariant. -/
theorem inv_next (hobeys : ∀ t j q, p.thread t = some (j, q) → ∃ g, Obeys regMonitor (fun _ _ => True) g q)
    (h : Inv p) (he : (threads T env).enabled p a) (hc : LeavesNothing p a) : Inv ((threads T env).next p a) := by
  obtain ⟨t, j, rfl, -, hn⟩ | ⟨t, answer, j, o, k, rfl, ht, ha, hn⟩ | ⟨t, j, b, rfl, -, hn⟩ := pool_cases he
  · rw [hn]
    refine h.mono rfl fun u fd hu => ?_
    obtain ⟨-, i, k, hk⟩ | ⟨-, hu⟩ := head_update hu
    · simp only [Option.some.injEq, Prod.mk.injEq] at hk
      have hbody : Obeys regMonitor (fun _ _ => True) none j.body := obeys_hooked j.hook j.fuel j.call
      rw [hk.2] at hbody
      cases hbody.1 fd rfl
    · exact hu
  · obtain ⟨g, -, hk⟩ := hobeys t j _ ht
    -- the thread is about to register only what it has just obtained
    have hhead : ∀ u fd, ((threads T env).next p (.op t answer)).head u = some (.get fd true) →
        u = t ∧ obtained o (answer o) = some fd ∨ u ≠ t ∧ p.head u = some (.get fd true) := by
      intro u fd hu
      rw [hn] at hu
      obtain ⟨hut, i, k', hk'⟩ | hu := head_update hu
      · simp only [Option.some.injEq, Prod.mk.injEq] at hk'
        have hr := hk (answer o)
        rw [hk'.2] at hr
        exact Or.inl ⟨hut, hr.1 fd rfl⟩
      · exact Or.inr hu
    have hw : ((threads T env).next p (.op t answer)).shared = next env p.shared o (answer o) := by rw [hn]; rfl
    cases hob : obtained o (answer o) with
    | some n =>
      obtain ⟨hno, hreg, hopened⟩ := obtained_next env ha hob
      refine h.obtain (t := t) hno (by rw [hw, hreg]) (fun fd => by rw [hw, hopened]) fun u fd hu => ?_
      obtain ⟨hut, hfd⟩ | hu := hhead u fd hu
      · exact Or.inl ⟨hut, by simpa [hob] using hfd⟩
      · exact Or.inr hu.2
    | none =>
      have hothers : ∀ u fd, ((threads T env).next p (.op t answer)).head u = some (.get fd true) →
          u ≠ t ∧ p.head u = some (.get fd true) := fun u fd hu => (hhead u fd hu).resolve_left (by simp [hob])
      have ht := head_eq_some.mpr ⟨j, k, ht⟩
      by_cases hget : ∃ fd, o = .get fd true
      · obtain ⟨fd, rfl⟩ := hget
        exact h.register ht hw hothers
      by_cases hclose : ∃ fd, o = .orig (.close fd)
      · obtain ⟨fd, rfl⟩ := hclose
        simp only [LeavesNothing, ht] at hc
        obtain ⟨hr, hnot⟩ := hc
        exact h.close hr hnot hw fun u fd hu => (hothers u fd hu).2
      · refine h.other (fun fd => ?_) fun u fd hu => (hothers u fd hu).2
        rw [hw]
        exact next_mono ha (fun fd heq => hget ⟨fd, heq⟩) (fun fd heq => hclose ⟨fd, heq⟩) fd
  · rw [hn]
    refine h.mono rfl fun u fd hu => ?_
    obtain ⟨-, i, k, hk⟩ | ⟨-, hu⟩ := head_update hu
    · cases hk
    · exact hu

/-- **Every run** in which `close_f` leaves nothing behind keeps the invariant. -/
theorem inv_reach (h : (threads T env).Reach LeavesNothing p) : Inv p := by
  refine h.inv_of (I := Inv) (fun p h₀ => ?_) fun p a hr hi he hc => ?_
  · have hhead : ∀ t o, p.head t ≠ some o := fun t o ht => by
      obtain ⟨j, k, ht⟩ := head_eq_some.mp ht
      rw [h₀.2 t] at ht
      cases ht
    exact ⟨fun fd hfd => (hfd (h₀.1 fd)).elim, fun t fd ht => (hhead t _ ht).elim, fun t u fd ht => (hhead t _ ht).elim⟩
  · exact inv_next (pool_obeys (fun j => obeys_hooked j.hook j.fuel j.call) hr) hi he hc

/-- **A new descriptor has the default settings.** Where `close_f` has left nothing behind so far, a thread that has got
a number from `socket_f` or `accept_f` and registers it finds the context with the default settings, whatever was done
to earlier descriptors with the number. -/
theorem fresh_settings {t : T} {answer : (o : Op) → o.Reply} (h : (threads T env).Reach LeavesNothing p)
    (ht : p.head t = some (.get fd true)) :
    ∃ c, ((threads T env).next p (.op t answer)).shared.reg fd = some c ∧
      (((threads T env).next p (.op t answer)).shared.ctx c).settings = .default := by
  obtain ⟨-, hr⟩ := (inv_reach h).pending t fd ht
  have hw : ((threads T env).next p (.op t answer)).shared = p.shared.register env fd := by
    obtain ⟨j, k, ht⟩ := head_eq_some.mp ht
    simp only [threads, pool, Pool.next, ht]
    rfl
  refine ⟨p.shared.ctxs, ?_, ?_⟩
  · rw [hw, register_reg hr, Function.update_self]
  · rw [hw, ← env.make_settings p.shared fd]
    simp [World.register, hr, World.create, World.setCtx]

/-- One answer of each kind. -/
def answers (c : Option Nat) (b : Bool) (n : Int) : (o : Op) → o.Reply
  | .orig _ => ⟨n, .eintr⟩
  | .soError _ => (⟨n, .eintr⟩, none)
  | .get _ _ => c
  | .getTimeout _ _ | .addEvent _ _ | .cancelled => none
  | .isClosed _ | .isSocket _ | .getUserNonblock _ | .getSysNonblock _ | .getIom => b
  | .yield => .eintr
  | .setUserNonblock _ _ | .setTimeout _ _ _ | .del _ | .cancelAll _ | .addTimer _ | .addConditionTimer _ _ _
  | .cancelTimer | .unrolled => ()

/-- A thread makes a call: its operations with their answers. -/
def callRun (t : T) (hook : Bool) (c : Call) (as : List (Option Nat × Bool × Int)) : List (PoolAct Op Op.Reply T Job) :=
  .start t ⟨hook, 0, c⟩ :: as.map (fun a => .op t (answers a.1 a.2.1 a.2.2)) ++ [.finish t]

/-- A socket is made, set non-blocking by its user and closed; another thread gets the number again. -/
def reuseRun (t u : T) : List (PoolAct Op Op.Reply T Job) :=
  callRun t true (.socket 2 1 0) [(none, false, 6), (some 0, false, 0)] ++
  callRun t true (.fcntl 6 (.setfl 2050#32))
    [(some 0, false, 0), (none, false, 0), (none, true, 0), (none, false, 0), (none, true, 0), (none, false, 0)] ++
  callRun t true (.close 6)
    [(some 0, false, 0), (none, true, 0), (none, false, 0), (none, false, 0), (none, false, 0)] ++
  [.start u ⟨true, 0, .socket 2 1 0⟩, .op u (answers none false 6)]

/-- A connection is accepted, set non-blocking by its user and closed on a thread with the hooks off; another thread,
with the hooks on, gets the number again. -/
def staleRun (t u : T) : List (PoolAct Op Op.Reply T Job) :=
  callRun t false (.accept 5 0 0) [(none, false, 6), (some 0, false, 0)] ++
  callRun t false (.fcntl 6 (.setfl 2050#32))
    [(some 0, false, 0), (none, false, 0), (none, true, 0), (none, false, 0), (none, true, 0), (none, false, 0)] ++
  callRun t false (.close 6) [(none, false, 0)] ++
  [.start u ⟨true, 0, .socket 2 1 0⟩, .op u (answers none false 6)]

/-- No thread at work, and one descriptor open, which has no context. -/
def Pool.listening : Pool Op Op.Reply Ret World T Job where
  shared := { World.oneSocket with reg := fun _ => none, ctxs := 0 }
  thread _ := none

/-- The number of a socket that was non-blocking to its user. -/
theorem fresh_settings_reuse : ∃ p : Pool Op Op.Reply Ret World Bool Job,
    (p.head true, p.shared.ctxs) = (some (.get 6 true), 1) ∧
      ∃ c, ((threads Bool Env.sockets).next p (.op true (answers (some 1) false 0))).shared.reg 6 = some c ∧
        (((threads Bool Env.sockets).next p (.op true (answers (some 1) false 0))).shared.ctx c).settings =
          .default := by
  have h : ((threads Bool Env.sockets).exec LeavesNothing Pool.listening (reuseRun false true)).isSome = true := by
    decide
  have h₀ : (threads Bool Env.sockets).init Pool.listening := ⟨fun _ => rfl, fun _ => rfl⟩
  exact ⟨_, rfl, fresh_settings (System.reach_exec h₀ h) rfl⟩

/-- What a `close` with the hooks off leaves behind. -/
theorem settings_inherited : ¬ ∀ (T : Type) [DecidableEq T] (env : Env) (p : Pool Op Op.Reply Ret World T Job) (t : T)
    (fd : Int) (answer : (o : Op) → o.Reply), (threads T env).Reach Always p → p.head t = some (.get fd true) →
      (p.thread t).map (fun x => x.1.hook) = some true → (threads T env).enabled p (.op t answer) →
        ∃ c, ((threads T env).next p (.op t answer)).shared.reg fd = some c ∧
          (((threads T env).next p (.op t answer)).shared.ctx c).settings = .default := by
  intro hall
  have h : ((threads Bool Env.sockets).exec Always Pool.listening (staleRun false true)).isSome = true := by
    decide
  have h₀ : (threads Bool Env.sockets).init Pool.listening := ⟨fun _ => rfl, fun _ => rfl⟩
  obtain ⟨c, hc, hs⟩ := hall Bool Env.sockets _ true 6 (answers (some 0) false 0) (System.reach_exec h₀ h)
    rfl rfl rfl
  have hc : some 0 = some c := hc
  cases hc
  have hs : Settings.mk true none none = .default := hs
  cases hs

end Sylar.Calls
