import Sylar.Hook.Passing
import Sylar.Hook.Registry
import Sylar.Hook.UserFlags
import Sylar.Lib.Atomic

/-!
# Hooked calls are atomic

What a hooked call is to the kernel. Any number of threads are each in a hooked call, in an environment that changes the
kernel's state as it likes; what `FdMgr`, its contexts, the timers and `IOManager` answer is left open. `do_io` may call
its original function any number of times, but a call that fails with `EINTR` or `EAGAIN` has done nothing, and after
any other one it returns. `connect` is not among the calls: it makes two original calls that both count.

- `Kernel.deed`: what the call of a user may come to, in one step;
- `callMonitor`: whether it has come to it; `atomic_retry` and the lemmas behind it, function by function;
- `hooked_atomic`: histories of hooked calls are histories of such steps.
-/

namespace Sylar.Calls

open Trans Hook

/-- The kernel. Of its calls it is only said that one of the I/O functions that was interrupted, or would have to wait,
has done nothing. -/
structure Kernel (K : Type) where
  allowed : K → Call → Ret → Prop
  next : K → Call → Ret → K
  again : ∀ k c r, c.isIo = true → (r.failed .eintr || r.failed .eagain) = true → next k c r = k

variable {K T E : Type} [DecidableEq T]

/-- **The meaning of the operations**, with everything left open but the kernel. -/
def Kernel.sem (kern : Kernel K) : Sem Op Op.Reply K where
  allowed k
    | .orig c, r => kern.allowed k c r
    | .soError fd, r => kern.allowed k (.getsockopt fd .solSocket .soError 0 0) r.1
    | .unrolled, _ => False
    | _, _ => True
  next k
    | .orig c, r => kern.next k c r
    | .soError fd, r => kern.next k (.getsockopt fd .solSocket .soError 0 0) r.1
    | _, _ => k

/-- A call that is not a `connect`. -/
structure AtomicJob extends Job where
  not_connect : call.isConnect = false

def AtomicJob.body (j : AtomicJob) : Hooked Ret := j.toJob.body

/-- The original call of a user's call: the same, up to `O_NONBLOCK` among the flags of `F_SETFL` and to an argument
that the case of the command does not read. -/
def Passes : Call → Call → Prop
  | .fcntl fd (.setfl arg), c => ∃ arg', c = .fcntl fd (.setfl arg') ∧ SameOthers arg' arg
  | .fcntl fd (.getfl _), c => c = .fcntl fd (.getfl none)
  | .fcntl fd (.plain cmd _), c => c = .fcntl fd (.plain cmd none)
  | .fcntl fd (.other cmd _), c => c = .fcntl fd (.other cmd none)
  | c', c => c = c'

/-- What the user is told: the result, up to `O_NONBLOCK` in that of `F_GETFL`. -/
def Tells : Call → Ret → Ret → Prop
  | .fcntl _ (.getfl _), r, b => b = r ∨ ∃ v, b = ⟨(withNonblock v (.ofInt 32 r.n)).toInt, r.errno⟩
  | _, r, b => b = r

/-- What a call returns that has done nothing: `-1` from `do_io`, and `0` from the functions that sleep, which need not
call the kernel. -/
def Without (j : Job) (b : Ret) : Prop :=
  if j.call.isIo then b.n = -1
  else
    match j.call with
    | .sleep _ | .usleep _ | .nanosleep _ _ => j.hook = true ∧ b.n = 0
    | _ => False

/-- The results that fit what a call has come to. -/
def Gives (j : Job) : Option Ret → Ret → Prop
  | some r, b => Tells j.call r b
  | none, b => Without j b

/-- **What a hooked call comes to**: one original call, or nothing. -/
def Kernel.deed (kern : Kernel K) : Deed K AtomicJob Ret Ret where
  does j k r k' := ∃ c, Passes j.call c ∧ kern.allowed k c r ∧ k' = kern.next k c r
  gives j := Gives j.toJob

/-! ## The programs -/

/-- A call that fails so has done nothing. -/
def Retries (c : Call) (r : Ret) : Prop := c.isIo = true ∧ (r.failed .eintr || r.failed .eagain) = true

instance (c : Call) (r : Ret) : Decidable (Retries c r) := inferInstanceAs (Decidable (_ ∧ _))

/-- Remembers the result of the original call that counts, after which there is none. -/
def callMonitor (c : Call) : Monitor Op Op.Reply (Option Ret) where
  ok g
    | .orig c' => g = none ∧ Passes c c'
    | .soError _ => False
    | _ => True
  next g
    | .orig c', r => if Retries c' r then g else some r
    | _, _ => g

variable {c : Call} {L : Option Ret → Ret → Prop} {g : Option Ret} {fd : Int}

/-- One original call that counts. -/
theorem atomic_orig {c' : Call} (hpass : Passes c c') (hio : c'.isIo = false) (hL : ∀ r, L (some r) r) :
    Obeys (callMonitor c) L none (orig c') := by
  refine ⟨⟨rfl, hpass⟩, fun r => ?_⟩
  have hr : ¬ Retries c' r := by simp [Retries, hio]
  simp only [callMonitor, if_neg hr]
  exact hL r

/-- To look at a context is nothing to the kernel. -/
theorem atomic_openSocket : Obeys (callMonitor c) (fun g' _ => g' = g) g (openSocket fd) := by
  refine ⟨trivial, fun x => ?_⟩
  cases x with
  | none => exact rfl
  | some x =>
    refine ⟨trivial, fun b => ?_⟩
    dsimp only [Prog.bind]
    split
    · exact rfl
    · refine ⟨trivial, fun b => ?_⟩
      dsimp only [Prog.bind]
      split <;> exact rfl

theorem atomic_arm {timeout : Option Nat} {event : Hook.Event} :
    Obeys (callMonitor c) (fun g' _ => g' = g) g (arm timeout fd event) := by
  cases timeout with
  | none => exact rfl
  | some ms => exact ⟨trivial, fun _ => rfl⟩

theorem atomic_disarm {timeout : Option Nat} : Obeys (callMonitor c) (fun g' _ => g' = g) g (disarm timeout) := by
  cases timeout with
  | none => exact rfl
  | some ms => exact ⟨trivial, fun _ => rfl⟩

/-- **The loop of `do_io`**: before each original call nothing has been done. -/
theorem atomic_retry {fn : Int → Call} {io : IoFun} {timeout : Option Nat} (hpass : Passes c (fn fd))
    (hio : (fn fd).isIo = true) (hfail : ∀ e, L none ⟨-1, e⟩) (hL : ∀ r, L (some r) r) :
    ∀ fuel, Obeys (callMonitor c) L none (retry fd fn io timeout fuel)
  | 0 => ⟨trivial, fun _ => hfail _⟩
  | fuel + 1 => by
    have ih : Obeys (callMonitor c) L none (retry fd fn io timeout fuel) := atomic_retry hpass hio hfail hL fuel
    simp only [retry, Prog.call_bind, obeys_op]
    refine ⟨⟨rfl, hpass⟩, fun n => ?_⟩
    simp only [callMonitor]
    split_ifs with hr heintr heagain heintr heagain
    · exact ih
    · refine Obeys.bind (L := fun g' _ => g' = none) (fun _ _ hg => ?_) atomic_arm
      subst hg
      refine ⟨trivial, fun rt => ?_⟩
      cases rt with
      | some e =>
        refine Obeys.bind (L := fun g' _ => g' = none) (fun _ _ hg => ?_) atomic_disarm
        subst hg
        exact hfail e
      | none =>
        refine ⟨trivial, fun _ => ?_⟩
        refine Obeys.bind (L := fun g' _ => g' = none) (fun _ _ hg => ?_) atomic_disarm
        subst hg
        refine ⟨trivial, fun x => ?_⟩
        dsimp only
        split
        · exact hfail _
        · exact ih
    · simp [Retries, heintr, heagain] at hr
    · simp [Retries, hio, heintr] at hr
    · simp [Retries, hio, heagain] at hr
    · exact hL n

/-- **`do_io`.** -/
theorem atomic_doIo {fn : Int → Call} {io : IoFun} {hook : Bool} {fuel : Nat} (hpass : Passes c (fn fd))
    (hio : (fn fd).isIo = true) (hfail : ∀ e, L none ⟨-1, e⟩) (hL : ∀ r, L (some r) r) :
    Obeys (callMonitor c) L none (doIo hook fuel fd fn io) := by
  refine obeys_looks (K := (· = none)) ?_ ?_ ?_ ?_ rfl
  · rintro _ o rfl ho
    cases o <;> first | exact ⟨trivial, fun _ => rfl⟩ | exact ho.elim
  · rintro _ rfl
    exact hfail _
  · rintro _ rfl
    refine ⟨⟨rfl, hpass⟩, fun r => ?_⟩
    simp only [callMonitor]
    split_ifs with hr
    · -- it has done nothing, and `-1` is returned
      have hn : r = ⟨-1, r.errno⟩ := by
        have hr' := hr.2
        simp only [Ret.failed, Bool.or_eq_true, Bool.and_eq_true, beq_iff_eq] at hr'
        rcases hr' with ⟨hn, -⟩ | ⟨hn, -⟩ <;> rw [← hn]
      rw [hn]
      exact hfail _
    · exact hL r
  · rintro _ v rfl
    exact atomic_retry hpass hio hfail hL fuel

/-- A call that sets a timer and yields. -/
theorem atomic_timer {hook : Bool} {ms : Nat} (hio : c.isIo = false) (hpass : Passes c c) (hL : ∀ r, L (some r) r)
    (hzero : hook = true → ∀ e, L none ⟨0, e⟩) :
    Obeys (callMonitor c) L none (if !hook then orig c else do
      addTimer ms
      pure ⟨0, ← yield⟩) := by
  cases hook with
  | false => exact atomic_orig hpass hio hL
  | true => exact ⟨trivial, fun _ => ⟨trivial, fun e => hzero rfl e⟩⟩

theorem atomic_fcntl (hook : Bool) (fuel : Nat) : ∀ cmd,
    Obeys (callMonitor (.fcntl fd cmd)) (Gives ⟨hook, fuel, .fcntl fd cmd⟩) none (fcntl fd cmd)
  | .setfl arg => by
    refine Obeys.bind (L := fun g' _ => g' = none) (fun _ x hg => ?_) atomic_openSocket
    subst hg
    cases x with
    | none => exact atomic_orig ⟨arg, rfl, rfl⟩ rfl fun _ => rfl
    | some x =>
      refine ⟨trivial, fun _ => ⟨trivial, fun b => ?_⟩⟩
      dsimp only [Prog.bind]
      split
      · exact atomic_orig ⟨_, rfl, others_withNonblock true arg⟩ rfl fun _ => rfl
      · exact atomic_orig ⟨_, rfl, others_withNonblock false arg⟩ rfl fun _ => rfl
  | .getfl extra => by
    simp only [fcntl, Prog.call_bind, obeys_op]
    refine ⟨⟨rfl, rfl⟩, fun r => ?_⟩
    have hr : ¬ Retries (.fcntl fd (.getfl none)) r := by simp [Retries, Call.isIo]
    simp only [callMonitor, if_neg hr]
    refine Obeys.bind (L := fun g' _ => g' = some r) (fun _ x hg => ?_) atomic_openSocket
    subst hg
    cases x with
    | none => exact Or.inl rfl
    | some x =>
      refine ⟨trivial, fun b => ?_⟩
      dsimp only
      split
      · exact Or.inr ⟨true, rfl⟩
      · exact Or.inr ⟨false, rfl⟩
  | .int .. | .plain .. | .lock .. | .owner .. | .other .. => atomic_orig rfl rfl fun _ => rfl

theorem atomic_ioctl (hook : Bool) (fuel : Nat) {arg : Ptr} {value : BitVec 32} : ∀ request,
    Obeys (callMonitor (.ioctl fd request arg value)) (Gives ⟨hook, fuel, .ioctl fd request arg value⟩) none
      (ioctl fd request arg value)
  | .fionbio => by
    refine Obeys.bind (L := fun g' _ => g' = none) (fun _ x hg => ?_) atomic_openSocket
    subst hg
    cases x with
    | none => exact atomic_orig rfl rfl fun _ => rfl
    | some x => exact ⟨trivial, fun _ => atomic_orig rfl rfl fun _ => rfl⟩
  | .other request => atomic_orig rfl rfl fun _ => rfl

theorem atomic_setsockopt {hook : Bool} (hL : ∀ r, L (some r) r) {level : Level} {optname : OptName} {optval : Ptr}
    {tv : Timeval} {optlen : Nat} :
    Obeys (callMonitor (.setsockopt fd level optname optval tv optlen)) L none
      (setsockopt hook fd level optname optval tv optlen) := by
  unfold setsockopt
  split
  · exact atomic_orig rfl rfl hL
  split
  · refine ⟨trivial, fun x => ?_⟩
    cases x with
    | none => exact atomic_orig rfl rfl hL
    | some x => exact ⟨trivial, fun _ => atomic_orig rfl rfl hL⟩
  · exact atomic_orig rfl rfl hL

theorem atomic_close {hook : Bool} (hL : ∀ r, L (some r) r) :
    Obeys (callMonitor (.close fd)) L none (close hook fd) := by
  unfold close
  split
  · exact atomic_orig rfl rfl hL
  refine ⟨trivial, fun x => ?_⟩
  cases x with
  | none => exact atomic_orig rfl rfl hL
  | some x =>
    refine ⟨trivial, fun b => ?_⟩
    dsimp only [Prog.bind]
    split
    · exact ⟨trivial, fun _ => ⟨trivial, fun _ => atomic_orig rfl rfl hL⟩⟩
    · exact ⟨trivial, fun _ => atomic_orig rfl rfl hL⟩

/-- A new socket is registered when the kernel has made it. -/
theorem atomic_socket {hook : Bool} {domain type protocol : Int} (hL : ∀ r, L (some r) r) :
    Obeys (callMonitor (.socket domain type protocol)) L none (socket hook domain type protocol) := by
  unfold socket
  split
  · exact atomic_orig rfl rfl hL
  refine ⟨⟨rfl, rfl⟩, fun r => ?_⟩
  have hr : ¬ Retries (.socket domain type protocol) r := by simp [Retries, Call.isIo]
  simp only [callMonitor, if_neg hr]
  dsimp only [Prog.bind]
  split
  · exact hL r
  · exact ⟨trivial, fun _ => hL r⟩

theorem atomic_accept {hook : Bool} {fuel : Nat} {addr addrlen : Ptr} (hfail : ∀ e, L none ⟨-1, e⟩)
    (hL : ∀ r, L (some r) r) :
    Obeys (callMonitor (.accept fd addr addrlen)) L none (accept hook fuel fd addr addrlen) := by
  refine Obeys.bind (L := L) (fun g r hr => ?_) (atomic_doIo rfl rfl hfail hL)
  split
  · exact ⟨trivial, fun _ => hr⟩
  · exact hr

/-- **Every hooked call but `connect`** makes at most one original call that counts, and returns its result. -/
theorem atomic_hooked (j : AtomicJob) : Obeys (callMonitor j.call) (Gives j.toJob) none j.body := by
  obtain ⟨⟨hook, fuel, call⟩, hconnect⟩ := j
  cases call with
  | connect => cases hconnect
  | sleep | usleep | nanosleep =>
    exact atomic_timer rfl rfl (fun _ => rfl) fun hhook e => ⟨hhook, rfl⟩
  | socket => exact atomic_socket fun _ => rfl
  | accept => exact atomic_accept (fun _ => rfl) fun _ => rfl
  | close => exact atomic_close fun _ => rfl
  | fcntl fd cmd => exact atomic_fcntl hook fuel cmd
  | ioctl fd request => exact atomic_ioctl hook fuel request
  | getsockopt => exact atomic_orig rfl rfl fun _ => rfl
  | setsockopt => exact atomic_setsockopt fun _ => rfl
  | read | readv | recv | recvfrom | recvmsg | write | writev | send | sendto | sendmsg =>
    dsimp only [AtomicJob.body, Job.body, hooked]
    exact atomic_doIo rfl rfl (fun _ => rfl) fun _ => rfl

/-! ## The threads -/

/-- An operation is nothing to the kernel, or it is the deed of the call. -/
theorem kernel_step (kern : Kernel K) (j : AtomicJob) {g : Option Ret} {k : K} {o : Op} {r : o.Reply}
    (ho : (callMonitor j.call).ok g o) (ha : kern.sem.allowed k o r) :
    (callMonitor j.call).next g o r = g ∧ kern.sem.next k o r = k ∨
      g = none ∧ ∃ b, (callMonitor j.call).next g o r = some b ∧ kern.deed.does j k b (kern.sem.next k o r) := by
  cases o with
  | orig c =>
    obtain ⟨rfl, hpass⟩ := ho
    by_cases hr : Retries c r
    · exact Or.inl ⟨if_pos hr, kern.again k c r hr.1 hr.2⟩
    · exact Or.inr ⟨rfl, r, if_neg hr, c, hpass, ha, rfl⟩
  | soError fd => exact ho.elim
  | _ => exact Or.inl ⟨rfl, rfl⟩

/-- **Hooked calls are atomic.** Whatever the threads, the scheduler's answers and the environment do meanwhile: what
calls begin and end in a run, in which order and with what results, is also seen where each call in one step makes one
original call or does nothing; and the kernel ends in the same state. -/
theorem hooked_atomic (kern : Kernel K) (V : System K E) {p p' : Pool Op Op.Reply Ret K T AtomicJob}
    {as : List (PoolAct Op Op.Reply T AtomicJob ⊕ E)} (h₀ : (crowd kern.sem V AtomicJob.body).init p)
    (h : (crowd kern.sem V AtomicJob.body).Steps Always p as p') :
    ∃ bs q, (atomic kern.deed V).Steps Always ⟨p.shared, fun _ => none⟩ bs q ∧ q.shared = p'.shared ∧
      bs.filterMap AtomicAct.mark = (crowd kern.sem V AtomicJob.body).trace Pool.mark p as := by
  have hstart : Follows kern.deed (fun j : AtomicJob => callMonitor j.call) p ⟨p.shared, fun _ => none⟩ := by
    refine ⟨rfl, fun t => ?_⟩
    rw [h₀.2 t]
    exact .none
  obtain ⟨bs, q, hbs, hq, hmarks⟩ := crowd_atomic atomic_hooked (fun j g k o r => kernel_step kern j) h hstart
  exact ⟨bs, q, hbs, hq.shared, hmarks⟩

/-- A pipe with so many bytes in it. -/
def Kernel.pipe : Kernel Nat where
  allowed k
    | .read _ _ count, r => r.failed .eintr = true ∨ (if k = 0 then r.failed .eagain = true else r.n = min k count)
    | .write _ _ count, r => r.n = count
    | _, _ => True
  next k
    | .read _ _ _, r => k - r.n.toNat
    | .write _ _ _, r => k + r.n.toNat
    | _, _ => k
  again k c r hio hr := by
    have hn : r.n = -1 := by
      simp only [Ret.failed, Bool.or_eq_true, Bool.and_eq_true, beq_iff_eq] at hr
      rcases hr with ⟨hn, -⟩ | ⟨hn, -⟩ <;> exact hn
    cases c <;> simp [hn]

instance (k : Nat) (r : Ret) : ∀ c, Decidable (Kernel.pipe.allowed k c r)
  | .read _ _ count =>
    inferInstanceAs (Decidable
      (r.failed .eintr = true ∨ (if k = 0 then r.failed .eagain = true else r.n = min k count)))
  | .write _ _ count => inferInstanceAs (Decidable (r.n = count))
  | .sleep _ | .usleep _ | .nanosleep _ _ | .socket _ _ _ | .connect _ _ _ | .accept _ _ _ | .readv _ _ _
  | .recv _ _ _ _ | .recvfrom _ _ _ _ _ _ | .recvmsg _ _ _ | .writev _ _ _ | .send _ _ _ _ | .sendto _ _ _ _ _ _
  | .sendmsg _ _ _ | .close _ | .fcntl _ _ | .ioctl _ _ _ _ | .getsockopt _ _ _ _ _ | .setsockopt _ _ _ _ _ _ =>
    isTrue trivial

instance (k : Nat) : ∀ (o : Op) (r : o.Reply), Decidable (Kernel.pipe.sem.allowed k o r)
  | .orig c, r => inferInstanceAs (Decidable (Kernel.pipe.allowed k c r))
  | .soError _, _ => isTrue trivial
  | .unrolled, _ => isFalse id
  | .get _ _, _ | .isClosed _, _ | .isSocket _, _ | .getUserNonblock _, _ | .setUserNonblock _ _, _
  | .getSysNonblock _, _ | .getTimeout _ _, _ | .setTimeout _ _ _, _ | .del _, _ | .getIom, _ | .cancelAll _, _
  | .addTimer _, _ | .addConditionTimer _ _ _, _ | .addEvent _ _, _ | .cancelTimer, _ | .yield, _ | .cancelled, _ =>
    isTrue trivial

/-- Nobody else has the pipe, which is empty. -/
def alone : System Nat Empty where
  init k := k = 0
  enabled _ := Empty.elim
  next k _ := k

instance (k : Nat) (e : Empty) : Decidable (alone.enabled k e) := e.elim

/-- A thread of a scheduler reads ten bytes. -/
def AtomicJob.read : AtomicJob := ⟨⟨true, 3, .read 5 0 10⟩, rfl⟩

/-- Another thread writes four. -/
def AtomicJob.write : AtomicJob := ⟨⟨false, 0, .write 6 0 4⟩, rfl⟩

/-- The answer of an original function. -/
def reply (r : Ret) (o : Op) : o.Reply :=
  match o with
  | .orig _ => r
  | o => answers none false 0 o

/-- The reader is interrupted, finds nothing and yields; the writer comes, and the reader goes on. -/
def pipeRun : List (PoolAct Op Op.Reply Bool AtomicJob ⊕ Empty) :=
  [.inl (.start false .read), .inl (.op false (answers (some 0) false 0)), .inl (.op false (answers none false 0)),
    .inl (.op false (answers none true 0)), .inl (.op false (answers none false 0)),
    .inl (.op false (answers none false 0)), .inl (.op false (answers none false (-1))),
    .inl (.op false (reply ⟨-1, .eagain⟩)), .inl (.op false (answers none false 0)),
    .inl (.start true .write), .inl (.op true (answers none false 4)), .inl (.op false (answers none false 0)),
    .inl (.finish true), .inl (.op false (answers none false 0)), .inl (.op false (answers none false 4)),
    .inl (.finish false)]

theorem hooked_atomic_pipe : ∃ bs q, (atomic Kernel.pipe.deed alone).Steps Always ⟨0, fun _ => none⟩ bs q ∧
    q.shared = 0 ∧ bs.filterMap AtomicAct.mark =
      [.call false .read, .call true .write, .ret true ⟨4, .eintr⟩, .ret false ⟨4, .eintr⟩] := by
  have h : ((crowd Kernel.pipe.sem alone AtomicJob.body).exec Always ⟨0, fun _ => none⟩ pipeRun).isSome = true := by
    decide
  have h₀ : (crowd Kernel.pipe.sem alone AtomicJob.body).init (⟨0, fun _ => none⟩ : Pool Op Op.Reply Ret Nat Bool _) :=
    ⟨rfl, fun _ => rfl⟩
  exact hooked_atomic .pipe alone h₀ (System.steps_exec h)

end Sylar.Calls
