import Sylar.Hook.Failures

/-!
# Durations

How long the hooked functions have a fiber wait, which they compute in milliseconds.

- `delays_nap`: what the functions that sleep hand to `addTimer`; `sleeps_floor`: that it is the duration asked for,
  rounded down, as long as nothing overflows; `sleeps_enough`: and no less than asked for if that is whole milliseconds;
- `timers_doIo`: the timers of a `do_io`, one for every time that it asks for an event; `timeout_meant`: they are what
  was set for the socket, if that is whole milliseconds and not zero.
-/

namespace Sylar.Calls

open Trans Hook

variable {env : Env} {w w' : World} {es : Events} {r : Ret} {fd : Int} {fuel : Nat}

/-! ## Sleeping -/

/-- A call that sleeps. -/
inductive Nap where
  | sleep (seconds : BitVec 32)
  | usleep (usec : BitVec 32)
  | nanosleep (req : Timespec) (rem : Ptr)
deriving DecidableEq, Repr

namespace Nap

def call : Nap → Call
  | .sleep seconds => .sleep seconds
  | .usleep usec => .usleep usec
  | .nanosleep req rem => .nanosleep req rem

/-- The duration that is asked for, in nanoseconds. -/
def nanos : Nap → Int
  | .sleep seconds => seconds.toNat * 1000000000
  | .usleep usec => usec.toNat * 1000
  | .nanosleep req _ => req.sec * 1000000000 + req.nsec

/-- A `timespec` that is one, and whose milliseconds fit into a `long`. -/
def Valid : Nap → Prop
  | .nanosleep req _ => 0 ≤ req.sec ∧ req.sec * 1000 + 999 < 0x8000000000000000 ∧ 0 ≤ req.nsec ∧ req.nsec < 1000000000
  | _ => True

/-- The delay that the function computes. -/
def delay : Nap → Nat
  | .sleep seconds => (seconds * 1000#32).toNat
  | .usleep usec => (usec / 1000#32).toNat
  | .nanosleep req _ => ((timeoutMs req).signExtend 64).toNat

/-- The milliseconds fit into the type that the function computes them in. -/
def Fits : Nap → Prop
  | .sleep seconds => seconds.toNat * 1000 < 0x100000000
  | .usleep _ => True
  | .nanosleep req _ => req.sec * 1000 + req.nsec / 1000000 < 0x80000000

end Nap

theorem Nap.nanos_nonneg {n : Nap} (hn : n.Valid) : 0 ≤ n.nanos := by
  cases n with
  | sleep | usleep => simp only [nanos]; omega
  | nanosleep req rem =>
    obtain ⟨hsec, -, hnsec, -⟩ := hn
    simp only [nanos]
    omega

/-- A millisecond count that went through an `int`. -/
theorem signExtend_ofInt {m : Int} (h₀ : 0 ≤ m) (h : m < 0x8000000000000000) :
    ((BitVec.ofInt 32 m).signExtend 64).toNat = m.toNat ↔ m < 0x80000000 := by
  rw [BitVec.toNat_signExtend, BitVec.toNat_setWidth, BitVec.msb_eq_decide, BitVec.toNat_ofInt]
  split <;> simp_all <;> omega

/-- **What a call that sleeps computes** is what is asked for, rounded down, just when nothing overflows. -/
theorem Nap.delay_eq_iff {n : Nap} (hn : n.Valid) : (n.delay : Int) = n.nanos / 1000000 ↔ n.Fits := by
  cases n with
  | sleep seconds =>
    simp only [delay, nanos, Fits, BitVec.toNat_mul]
    simp
    omega
  | usleep usec =>
    simp only [delay, nanos, Fits, BitVec.toNat_udiv]
    simp
    omega
  | nanosleep req rem =>
    obtain ⟨hsec, hfits, hnsec, hlt⟩ := hn
    have hdiv : (req.nsec.tdiv 1000).tdiv 1000 = req.nsec / 1000000 := by
      rw [Int.tdiv_eq_ediv_of_nonneg hnsec, Int.tdiv_eq_ediv_of_nonneg (by omega)]
      omega
    have hms : (req.sec * 1000000000 + req.nsec) / 1000000 = req.sec * 1000 + req.nsec / 1000000 := by omega
    simp only [delay, nanos, Fits, timeoutMs, hdiv, hms]
    rw [← signExtend_ofInt (by omega) (by omega)]
    omega

/-- The delays that are handed to `addTimer`. -/
def delays (es : Events) : List Nat :=
  es.filterMap fun e =>
    match e.op with
    | .addTimer ms => some ms
    | _ => none

/-- **A call that sleeps** hands one delay to `addTimer`. -/
theorem delays_nap {n : Nap} (h : Run (sem env) w (hooked true fuel n.call) es w' r) : delays es = [n.delay] := by
  cases n with
  | sleep | usleep | nanosleep =>
    obtain ⟨_, es₁, -, rfl, h₁⟩ := run_op.mp h
    obtain ⟨_, es₂, -, rfl, h₂⟩ := run_op.mp h₁
    obtain ⟨rfl, -, -⟩ := run_ret.mp h₂
    rfl

theorem exists_nap (env : Env) (w : World) (fuel : Nat) (n : Nap) :
    ∃ es, Run (sem env) w (hooked true fuel n.call) es w ⟨0, .eintr⟩ := by
  cases n with
  | sleep | usleep | nanosleep => exact ⟨_, .op (r := ()) trivial (.op (r := .eintr) trivial (.ret _ _))⟩

/-- **The delay is the duration that is asked for**, rounded down, if and only if nothing overflows on the way. -/
theorem sleeps_floor (env : Env) (w : World) (fuel : Nat) (n : Nap) (hn : n.Valid) :
    (∀ es w' r, Run (sem env) w (hooked true fuel n.call) es w' r → delays es = [(n.nanos / 1000000).toNat]) ↔
      n.Fits := by
  rw [← Nap.delay_eq_iff hn]
  have hnonneg := Nap.nanos_nonneg hn
  constructor
  · intro hall
    obtain ⟨es, h⟩ := exists_nap env w fuel n
    have hdelay : n.delay = (n.nanos / 1000000).toNat := by
      have hes := hall es _ _ h
      rw [delays_nap h] at hes
      exact List.singleton_inj.mp hes
    omega
  · intro heq es w' r h
    rw [delays_nap h, ← heq]
    rfl

/-- A second and a half. -/
theorem sleeps_floor_usleep : ∃ es w' r,
    Run (sem Env.sockets) World.oneSocket (hooked true 0 (.usleep 1500000#32)) es w' r ∧ delays es = [1500] := by
  obtain ⟨es, h⟩ := exists_nap Env.sockets World.oneSocket 0 (.usleep 1500000#32)
  exact ⟨es, _, _, h, (sleeps_floor Env.sockets World.oneSocket 0 (.usleep 1500000#32) trivial).mpr trivial es _ _ h⟩

/-- `sleep(4294968)`, which is `704` milliseconds. -/
theorem sleep_overflows : ¬ ∀ env w fuel (n : Nap), n.Valid → ∀ es w' r,
    Run (sem env) w (hooked true fuel n.call) es w' r → delays es = [(n.nanos / 1000000).toNat] := by
  intro hall
  obtain ⟨es, h⟩ := exists_nap Env.sockets World.oneSocket 0 (.sleep 4294968#32)
  have hes := hall _ _ _ (.sleep 4294968#32) trivial es _ _ h
  rw [delays_nap h] at hes
  revert hes
  decide

/-- **The delay is no less than the duration that is asked for** if and only if that is a whole number of
milliseconds. -/
theorem sleeps_enough (env : Env) (w : World) (fuel : Nat) (n : Nap) (hn : n.Valid) (hfits : n.Fits) :
    (∀ es w' r, Run (sem env) w (hooked true fuel n.call) es w' r →
      ∀ ms ∈ delays es, n.nanos ≤ (ms : Int) * 1000000) ↔ n.nanos % 1000000 = 0 := by
  have heq := (Nap.delay_eq_iff hn).mpr hfits
  constructor
  · intro hall
    obtain ⟨es, h⟩ := exists_nap env w fuel n
    have hle := hall es _ _ h n.delay (by rw [delays_nap h]; exact List.mem_singleton_self _)
    omega
  · intro hwhole es w' r h ms hms
    rw [delays_nap h] at hms
    obtain rfl := List.mem_singleton.mp hms
    omega

/-- A second and two milliseconds. -/
theorem sleeps_enough_nanosleep : ∃ es w' r,
    Run (sem Env.sockets) World.oneSocket (hooked true 0 (.nanosleep ⟨1, 2000000⟩ 0)) es w' r ∧
      ∀ ms ∈ delays es, (1002000000 : Int) ≤ ms * 1000000 := by
  have hvalid : Nap.Valid (.nanosleep ⟨1, 2000000⟩ 0) := ⟨by decide, by decide, by decide, by decide⟩
  have hfits : Nap.Fits (.nanosleep ⟨1, 2000000⟩ 0) := by
    unfold Nap.Fits
    decide
  obtain ⟨es, h⟩ := exists_nap Env.sockets World.oneSocket 0 (.nanosleep ⟨1, 2000000⟩ 0)
  exact ⟨es, _, _, h, (sleeps_enough Env.sockets World.oneSocket 0 _ hvalid hfits).mpr (by decide) es _ _ h⟩

/-- `usleep(999)` does not wait at all. -/
theorem sleep_too_short : ¬ ∀ env w fuel (n : Nap), n.Valid → n.Fits → ∀ es w' r,
    Run (sem env) w (hooked true fuel n.call) es w' r → ∀ ms ∈ delays es, n.nanos ≤ (ms : Int) * 1000000 := by
  intro hall
  obtain ⟨es, h⟩ := exists_nap Env.sockets World.oneSocket 0 (.usleep 999#32)
  have hle := hall _ _ _ (.usleep 999#32) trivial trivial es _ _ h 0 (by rw [delays_nap h]; decide)
  revert hle
  decide

/-! ## Timeouts of sockets -/

/-- The delays of the condition timers. -/
def timers (es : Events) : List Nat :=
  es.filterMap fun e =>
    match e.op with
    | .addConditionTimer ms _ _ => some ms
    | _ => none

/-- How often an event was asked for, which is how often a `do_io` has to wait. -/
def asks (es : Events) : Nat :=
  es.countP fun e =>
    match e.op with
    | .addEvent _ _ => true
    | _ => false

/-- The timers of a `do_io` that waits `n` times. -/
def timersOf (timeout : Option Nat) (n : Nat) : List Nat :=
  match timeout with
  | some ms => .replicate n ms
  | none => []

/-- A timer, if there is a timeout, for every time that an event is asked for. -/
def Timed (timeout : Option Nat) (es : Events) : Prop := timers es = timersOf timeout (asks es)

section

variable {timeout : Option Nat} {event : Hook.Event} {fn : Int → Call} {io : IoFun}

theorem Timed.nil : Timed timeout [] := by cases timeout <;> rfl

theorem Timed.disarm (h : Run (sem env) w (disarm timeout) es w' ()) {es' : Events} (h' : Timed timeout es') :
    Timed timeout (es ++ es') := by
  cases timeout with
  | none =>
    obtain ⟨rfl, -, -⟩ := run_ret.mp h
    exact h'
  | some ms =>
    obtain ⟨_, _, -, rfl, hret⟩ := run_op.mp h
    obtain ⟨rfl, -, -⟩ := run_ret.mp hret
    exact h'

theorem Timed.ask (h : Run (sem env) w (arm timeout fd event) es w' ()) {es' : Events} {u : World}
    {rt : Option Errno} (h' : Timed timeout es') : Timed timeout (es ++ ⟨u, .addEvent fd event, rt⟩ :: es') := by
  have hasks : asks (⟨u, .addEvent fd event, rt⟩ :: es') = asks es' + 1 := List.countP_cons_of_pos rfl
  cases timeout with
  | none =>
    obtain ⟨rfl, -, -⟩ := run_ret.mp h
    exact h'
  | some ms =>
    obtain ⟨_, _, -, rfl, hret⟩ := run_op.mp h
    obtain ⟨rfl, -, -⟩ := run_ret.mp hret
    change ms :: timers es' = .replicate (asks (⟨u, .addEvent fd event, rt⟩ :: es')) ms
    rw [hasks, List.replicate_succ]
    exact congrArg _ h'

/-- **The loop of `do_io`** arms a timer whenever it asks for the event. -/
theorem timed_retry : ∀ {fuel : Nat} {w : World} {es : Events},
    Run (sem env) w (retry fd fn io timeout fuel) es w' r → Timed timeout es
  | 0, w, es, h => by
    obtain ⟨_, _, hnever, -, -⟩ := run_op.mp h
    exact hnever.elim
  | fuel + 1, w, es, h => by
    simp only [retry, Prog.call_bind] at h
    obtain ⟨n, es₁, -, rfl, h₁⟩ := run_op.mp h
    change Timed timeout es₁
    split at h₁
    · exact timed_retry h₁
    split at h₁
    · obtain ⟨esArm, es₂, w₂, ⟨⟩, rfl, harm, h₂⟩ := run_bind.mp h₁
      obtain ⟨rt, es₃, -, rfl, h₃⟩ := run_op.mp h₂
      refine Timed.ask harm ?_
      cases rt with
      | some e =>
        obtain ⟨esDis, es₄, w₃, ⟨⟩, rfl, hdis, h₄⟩ := run_bind.mp h₃
        obtain ⟨rfl, -, -⟩ := run_ret.mp h₄
        exact Timed.disarm hdis .nil
      | none =>
        obtain ⟨_, es₄, -, rfl, h₄⟩ := run_op.mp h₃
        obtain ⟨esDis, es₅, w₃, ⟨⟩, rfl, hdis, h₅⟩ := run_bind.mp h₄
        obtain ⟨x, es₆, -, rfl, h₆⟩ := run_op.mp h₅
        have hrest : Timed timeout es₆ := by
          split at h₆
          · obtain ⟨rfl, -, -⟩ := run_ret.mp h₆
            exact .nil
          · exact timed_retry h₆
        exact Timed.disarm hdis hrest
    · obtain ⟨rfl, -, -⟩ := run_ret.mp h₁
      exact .nil

/-- A `do_io` on a managed socket that is blocking to its user is the lookup and the loop. -/
theorem run_doIo {i : Nat} (hi : w.socket fd = some i) (hb : (w.ctx i).userNonblock = false) :
    Run (sem env) w (doIo true fuel fd fn io) es w' r ↔ ∃ es',
      es = ⟨w, .get fd false, some i⟩ :: ⟨w, .isClosed i, false⟩ :: ⟨w, .isSocket i, true⟩ ::
        ⟨w, .getUserNonblock i, false⟩ :: ⟨w, .getTimeout i io.timeoutSo, (w.ctx i).getTimeout io.timeoutSo⟩ :: es' ∧
      Run (sem env) w (retry fd fn io ((w.ctx i).getTimeout io.timeoutSo) fuel) es' w' r := by
  obtain ⟨hreg, hso⟩ := Option.filter_eq_some_iff.mp hi
  have hclosed : (w.ctx i).isClosed = false := by simp_all
  have hsock : (w.ctx i).isSocket = true := by simp_all
  simp [doIo, sem, allowed, next, hreg, hclosed, hsock, hb]

theorem timed_doIo {i : Nat} (hi : w.socket fd = some i) (hb : (w.ctx i).userNonblock = false)
    (h : Run (sem env) w (doIo true fuel fd fn io) es w' r) : Timed ((w.ctx i).getTimeout io.timeoutSo) es := by
  obtain ⟨es', rfl, h'⟩ := (run_doIo hi hb).mp h
  have htimed : Timed ((w.ctx i).getTimeout io.timeoutSo) es' := timed_retry h'
  exact htimed

/-- A wait that its timer ends. -/
theorem exists_retry (env : Env) (w : World) (fd : Int) (fn : Int → Call) (io : IoFun) (timeout : Option Nat) :
    ∃ es w' r, Run (sem env) w (retry fd fn io timeout 1) es w' r ∧ asks es = 1 := by
  have hagain : w.Returns (fn fd) ⟨-1, .eagain⟩ := returns_failure w _ _
  have hend : ∀ (u : World) (p : Hooked Ret), Run (sem env) u
      (cancelled >>= fun x => if x = some .etimedout then pure ⟨-1, .etimedout⟩ else p)
      [⟨u, .cancelled, some Errno.etimedout⟩] u ⟨-1, .etimedout⟩ := fun u p => by
    simp [sem, allowed, next]
  cases timeout with
  | none =>
    refine ⟨_, _, _, .op hagain (.op (r := none) trivial (.op (r := .eintr) trivial (hend _ _))), ?_⟩
    rfl
  | some ms =>
    refine ⟨_, _, _, .op hagain (.op (r := ()) trivial (.op (r := none) trivial (.op (r := .eintr) trivial
      (.op (r := ()) trivial (hend _ _))))), ?_⟩
    rfl

/-- A `do_io` that waits once. -/
theorem exists_waiting {i : Nat} (hi : w.socket fd = some i) (hb : (w.ctx i).userNonblock = false) (env : Env)
    (fn : Int → Call) (io : IoFun) : ∃ es w' r, Run (sem env) w (doIo true 1 fd fn io) es w' r ∧ asks es = 1 := by
  obtain ⟨es, w', r, h, hasks⟩ := exists_retry env w fd fn io ((w.ctx i).getTimeout io.timeoutSo)
  exact ⟨_, w', r, (run_doIo hi hb).mpr ⟨es, rfl, h⟩, hasks⟩

end

/-! ### What is set -/

/-- A `timeval` that is one, and whose milliseconds fit into a `long`. -/
structure Timeval.Valid (tv : Timeval) : Prop where
  sec : 0 ≤ tv.sec
  usec : 0 ≤ tv.usec
  lt : tv.usec < 1000000
  fits : tv.sec * 1000 + 999 < 0x8000000000000000

theorem timeoOf_valid {tv : Timeval} (h : tv.Valid) :
    timeoOf tv = some (tv.sec * 1000 + tv.usec / 1000).toNat := by
  obtain ⟨hsec, husec, hlt, hfits⟩ := h
  unfold timeoOf timeoutOf
  rw [Int.tdiv_eq_ediv_of_nonneg husec]
  have hn : (BitVec.ofInt 64 (tv.sec * 1000 + tv.usec / 1000)).toNat = (tv.sec * 1000 + tv.usec / 1000).toNat := by
    rw [BitVec.toNat_ofInt]
    omega
  have hne : BitVec.ofInt 64 (tv.sec * 1000 + tv.usec / 1000) ≠ -1#64 := by
    intro heq
    rw [heq] at hn
    simp at hn
    omega
  rw [if_neg hne, hn]

/-- What the user means by a timeout: none if it is zero, or else a timer for every wait, which is not too short. -/
structure Meant (tv : Timeval) (es : Events) : Prop where
  zero : tv = ⟨0, 0⟩ → timers es = []
  each : tv ≠ ⟨0, 0⟩ → (timers es).length = asks es
  long : tv ≠ ⟨0, 0⟩ → ∀ ms ∈ timers es, tv.sec * 1000000 + tv.usec ≤ (ms : Int) * 1000

/-- Later: after any operations, of whatever threads, none of which sets the timeout again. -/
inductive Later (env : Env) (i : Nat) (so : TimeoutSo) : World → World → Prop
  | refl (w : World) : Later env i so w w
  | step {w u : World} {o : Op} {a : o.Reply} : Later env i so w u → allowed u o a → (∀ v, o ≠ .setTimeout i so v) →
      Later env i so w (next env u o a)

/-- A timeout stays what it is. -/
theorem Later.timeout {i : Nat} {so : TimeoutSo} {u : World} (h : Later env i so w u) (hi : i < w.ctxs) :
    i < u.ctxs ∧ (u.ctx i).getTimeout so = (w.ctx i).getTimeout so := by
  induction h with
  | refl => exact ⟨hi, rfl⟩
  | @step u o a _ ha ho ih =>
    obtain ⟨hlt, hsame⟩ := ih
    cases o with
    | orig c => exact ⟨by simpa [next] using hlt, by simpa [next] using hsame⟩
    | get fd autoCreate =>
      cases autoCreate with
      | false => exact ⟨hlt, hsame⟩
      | true =>
        dsimp only [next, World.register]
        split
        · refine ⟨?_, ?_⟩
          · simp only [World.create, World.setCtx, modifyFlags_ctxs]
            omega
          · simpa [World.create, World.setCtx, Nat.ne_of_lt hlt] using hsame
        · exact ⟨hlt, hsame⟩
    | setUserNonblock c v =>
      refine ⟨hlt, ?_⟩
      rw [← hsame]
      by_cases hc : i = c
      · subst hc
        simp [next, World.setCtx, FdCtx.setUserNonblock, Hook.FdCtx.getTimeout]
      · simp [next, World.setCtx, hc]
    | setTimeout c so' v =>
      refine ⟨hlt, ?_⟩
      rw [← hsame]
      by_cases hc : i = c
      · subst hc
        have hso : so' ≠ so := fun heq => ho v (by rw [heq])
        cases so <;> cases so' <;>
          first
          | exact absurd rfl hso
          | simp [next, World.setCtx, FdCtx.setTimeout, Hook.FdCtx.getTimeout]
      · simp [next, World.setCtx, hc]
    | _ => exact ⟨hlt, hsame⟩

/-- Every later `do_io` in the direction of the timeout, while the number has its context and is blocking to its user,
waits as it is meant to. -/
def Honoured (env : Env) (w : World) (fd : Int) (i : Nat) (so : TimeoutSo) (tv : Timeval) : Prop :=
  ∀ u, Later env i so w u → u.socket fd = some i → (u.ctx i).userNonblock = false →
    ∀ fuel fn io es u' r, io.timeoutSo = so → Run (sem env) u (doIo true fuel fd fn io) es u' r → Meant tv es

theorem honoured_iff {i : Nat} {so : TimeoutSo} {tv : Timeval} (hi : w.socket fd = some i) (hlt : i < w.ctxs)
    (htv : tv.Valid) (htimeo : (w.ctx i).getTimeout so = timeoOf tv) :
    Honoured env w fd i so tv ↔ tv ≠ ⟨0, 0⟩ ∧ tv.usec % 1000 = 0 := by
  obtain ⟨hsec, husec, husecs, hfits⟩ := htv
  rw [timeoOf_valid ⟨hsec, husec, husecs, hfits⟩] at htimeo
  constructor
  · intro h
    -- the user makes the socket blocking and waits once
    obtain ⟨hsock, hb⟩ := setUser_socket (v := false) hi
    have hu : Later env i so w (w.setUser fd false) := by
      rw [setUser_eq hi]
      exact .step (o := .setUserNonblock i false) (a := ()) (.refl w) trivial nofun
    obtain ⟨es, u', r, hdo, hasks⟩ := exists_waiting hsock hb env (.read · 0 1) ⟨.read, so⟩
    have hmeant := h _ hu hsock hb 1 _ _ es u' r rfl hdo
    have htimed := timed_doIo hsock hb hdo
    rw [(hu.timeout hlt).2, htimeo, Timed, hasks] at htimed
    have hne : tv ≠ ⟨0, 0⟩ := fun hzero => by
      rw [hmeant.zero hzero] at htimed
      cases htimed
    refine ⟨hne, ?_⟩
    have hlong := hmeant.long hne _ (by rw [htimed]; exact List.mem_singleton_self _)
    omega
  · rintro ⟨hne, hwhole⟩ u hu hsock hb fuel fn io es u' r rfl hdo
    have htimed := timed_doIo hsock hb hdo
    rw [(hu.timeout hlt).2, htimeo] at htimed
    refine ⟨fun h => absurd h hne, fun _ => ?_, fun _ ms hms => ?_⟩
    · rw [htimed]
      exact List.length_replicate
    · rw [htimed] at hms
      obtain rfl := List.eq_of_mem_replicate hms
      omega

/-- The timeout that a `setsockopt` sets. -/
theorem honoured_set {i : Nat} {so : TimeoutSo} {optval : Ptr} {tv : Timeval} {optlen : Nat}
    (hi : w.socket fd = some i) (hlt : i < w.ctxs) (htv : tv.Valid)
    (h : Run (sem env) w (hooked true fuel (.setsockopt fd .solSocket (.timeo so) optval tv optlen)) es w' r) :
    Honoured env w' fd i so tv ↔ tv ≠ ⟨0, 0⟩ ∧ tv.usec % 1000 = 0 := by
  have hctx : w'.ctx i = (w.ctx i).setTimeout so (timeoOf tv) :=
    setting_ctx (k := .timeo so optval tv optlen) hi h
  obtain ⟨o, -, -, rfl, -⟩ := (once_setting env fuel (.timeo so optval tv optlen) hi).only _ _ _ h
  obtain ⟨hreg, hso⟩ := Option.filter_eq_some_iff.mp hi
  refine honoured_iff (Option.filter_eq_some_iff.mpr ⟨?_, ?_⟩) ?_ htv ?_
  · rw [kernel_reg]
    exact hreg
  · rw [hctx]
    cases so <;> exact hso
  · rw [kernel_ctxs]
    exact hlt
  · rw [hctx]
    cases so <;> rfl

/-- A `setsockopt` can succeed. -/
theorem exists_set (env : Env) (fuel : Nat) {i : Nat} (hi : w.socket fd = some i) (so : TimeoutSo) (optval : Ptr)
    (tv : Timeval) (optlen : Nat) : ∃ es w', Run (sem env) w
      (hooked true fuel (.setsockopt fd .solSocket (.timeo so) optval tv optlen)) es w' ⟨0, .eintr⟩ := by
  obtain ⟨es, -, h⟩ := (once_setting env fuel (.timeo so optval tv optlen) hi).returns ⟨0, .eintr⟩ trivial
  exact ⟨es, _, h⟩

/-- **A timeout keeps its meaning** from a successful `setsockopt` on, if and only if it is a whole number of
milliseconds other than zero. -/
theorem timeout_meant (env : Env) (w : World) (fd : Int) (fuel : Nat) (so : TimeoutSo) (optval : Ptr) (tv : Timeval)
    (optlen : Nat) {i : Nat} (hi : w.socket fd = some i) (hlt : i < w.ctxs) (htv : tv.Valid) :
    (∀ es w' r, Run (sem env) w (hooked true fuel (.setsockopt fd .solSocket (.timeo so) optval tv optlen)) es w' r →
      r.n ≠ -1 → Honoured env w' fd i so tv) ↔ tv ≠ ⟨0, 0⟩ ∧ tv.usec % 1000 = 0 := by
  constructor
  · intro hall
    obtain ⟨es, w', h⟩ := exists_set env fuel hi so optval tv optlen
    exact (honoured_set hi hlt htv h).mp (hall es w' _ h (by decide))
  · intro hwhole es w' r h _
    exact (honoured_set hi hlt htv h).mpr hwhole

/-- A second and a half for receiving. -/
theorem timeout_meant_rcv : ∃ es w',
    Run (sem Env.sockets) World.oneSocket
      (hooked true 0 (.setsockopt 5 .solSocket (.timeo .rcv) 1 ⟨1, 500000⟩ 16)) es w' ⟨0, .eintr⟩ ∧
      Honoured Env.sockets w' 5 0 .rcv ⟨1, 500000⟩ := by
  have hi : World.oneSocket.socket 5 = some 0 := rfl
  have htv : (⟨1, 500000⟩ : Timeval).Valid := ⟨by decide, by decide, by decide, by decide⟩
  obtain ⟨es, w', h⟩ := exists_set Env.sockets 0 hi .rcv 1 ⟨1, 500000⟩ 16
  exact ⟨es, w', h, (timeout_meant Env.sockets World.oneSocket 5 0 .rcv 1 ⟨1, 500000⟩ 16 hi (by decide) htv).mpr
    ⟨by decide, by decide⟩ es w' _ h (by decide)⟩

/-- `{0, 0}`, which is no timeout to the user, is a timer of no milliseconds. -/
theorem zero_timeout : ¬ ∀ env w fd fuel so optval (tv : Timeval) optlen i, w.socket fd = some i → i < w.ctxs →
    tv.Valid → ∀ es w' r,
      Run (sem env) w (hooked true fuel (.setsockopt fd .solSocket (.timeo so) optval tv optlen)) es w' r →
        r.n ≠ -1 → Honoured env w' fd i so tv := by
  intro hall
  have hi : World.oneSocket.socket 5 = some 0 := rfl
  have hlt : 0 < World.oneSocket.ctxs := by decide
  have htv : (⟨0, 0⟩ : Timeval).Valid := ⟨by decide, by decide, by decide, by decide⟩
  obtain ⟨es, w', h⟩ := exists_set Env.sockets 0 hi .rcv 1 ⟨0, 0⟩ 16
  have hhonoured := hall _ _ _ _ _ _ _ _ _ hi hlt htv es w' _ h (by decide)
  exact ((honoured_set hi hlt htv h).mp hhonoured).1 rfl

end Sylar.Calls
