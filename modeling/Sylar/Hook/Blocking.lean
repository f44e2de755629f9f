import Mathlib.Algebra.GroupWithZero.Nat
import Sylar.Hook.Waits

/-!
# `do_io` as a blocking call

On a managed socket that is blocking to the user, `do_io` calls the original function again and again, until it has
something else than `EINTR` and `EAGAIN` or a wait is ended by the timer.

- `Does`: runs without their silent operations; one round of the loop is one of `retry_eintr`, `retry_done`,
  `retry_refused` and `retry_waits`;
- `Script.Reaches`, `Fate`: the script lets the loop come to an original call, and it ends there (`retry_fate`,
  `retry_exists`);
- `faithful`: the call returns the first conclusive outcome, unless the timer ends a wait before;
- `bounded_iff`: the timeout bounds the whole call only where it does not wait twice.
-/

namespace Sylar.Waits

open Trans Hook Calls

/-! ## Runs without their silent operations -/

/-- The original call that an operation is. -/
def callOf : (o : Op) → o.Reply → List (Call × Ret)
  | .orig c, r => [(c, r)]
  | .soError fd, r => [(.getsockopt fd .solSocket .soError 0 0, r.1)]
  | _, _ => []

/-- The original calls of a run. -/
def calls (es : Events) : List (Call × Ret) := es.flatMap fun e => callOf e.op e.reply

/-- A run with the original calls `cs`; `done` says whether the call has returned. -/
def Does (w : World) (sc : Script) (s : State) (p : Hooked Ret) (cs : List (Call × Ret)) (done : Bool) (t : State)
    (r : Ret) : Prop :=
  ∃ es, Run (sem w sc) s p es t r ∧ calls es = cs ∧ (done = true ↔ Returned es)

variable {w : World} {sc : Script} {s t : State} {cs : List (Call × Ret)} {done : Bool} {r : Ret}

instance (es : Events) : Decidable (Returned es) := inferInstanceAs (Decidable (∀ e ∈ es, e.op ≠ .unrolled))

theorem Returned.cons_iff {e : Event Op Op.Reply State} {es : Events} :
    Returned (e :: es) ↔ e.op ≠ .unrolled ∧ Returned es := by
  simp [Returned]

@[simp] theorem does_ret {a : Ret} : Does w sc s (.ret a) cs done t r ↔ cs = [] ∧ done = true ∧ t = s ∧ r = a := by
  constructor
  · rintro ⟨es, h, rfl, hd⟩
    obtain ⟨rfl, rfl, rfl⟩ := run_ret.mp h
    exact ⟨rfl, hd.mpr (by simp [Returned]), rfl, rfl⟩
  · rintro ⟨rfl, rfl, rfl, rfl⟩
    exact ⟨[], .ret _ _, rfl, by simp [Returned]⟩

/-- One operation. -/
theorem does_op {o : Op} {k : o.Reply → Hooked Ret} :
    Does w sc s (.op o k) cs done t r ↔ ∃ a cs' done', allowed w sc s o a ∧
      Does w sc (next sc s o a) (k a) cs' done' t r ∧ cs = callOf o a ++ cs' ∧
      done = (o != .unrolled && done') := by
  constructor
  · rintro ⟨es, h, rfl, hd⟩
    obtain ⟨a, es', ha, rfl, h'⟩ := run_op.mp h
    refine ⟨a, calls es', decide (Returned es'), ha, ⟨es', h', rfl, by simp⟩, rfl, ?_⟩
    rw [Bool.eq_iff_iff, hd, Returned.cons_iff]
    simp
  · rintro ⟨a, cs', done', ha, ⟨es', h, rfl, hd⟩, rfl, rfl⟩
    refine ⟨⟨s, o, a⟩ :: es', .op ha h, rfl, ?_⟩
    rw [Returned.cons_iff, ← hd]
    simp

/-! ## One round -/

/-- `EINTR` or `EAGAIN`: the loops go on. -/
def again (r : Ret) : Bool := r.failed .eintr || r.failed .eagain

namespace Script

/-- How often `EAGAIN` comes before the `n`-th outcome. -/
def blocked (sc : Script) (n : Nat) : Nat := (List.range n).countP fun i => (sc.outcome i).failed .eagain

/-- For how long a wait lasts, with a timer of `timeout`. -/
def lasts (sc : Script) (timeout : Option Nat) (j : Nat) : Nat :=
  match sc.wake j with
  | .event after => after
  | .timer => timeout.elim 0 nanos

/-- For how long the first `k` waits last. -/
def elapsed (sc : Script) (timeout : Option Nat) (k : Nat) : Nat := ((List.range k).map (sc.lasts timeout)).sum

theorem blocked_succ (sc : Script) (n : Nat) :
    sc.blocked (n + 1) = sc.blocked n + if (sc.outcome n).failed .eagain then 1 else 0 := by
  simp [blocked, List.range_succ]

theorem elapsed_succ (sc : Script) (timeout : Option Nat) (k : Nat) :
    sc.elapsed timeout (k + 1) = sc.elapsed timeout k + sc.lasts timeout k := by
  simp [elapsed, List.range_succ]

/-- Whether a wait can end as the script says: the timer fires only where there is one, and never later than at its
deadline. -/
def Fits (sc : Script) (timeout : Option Nat) (j : Nat) : Prop :=
  match sc.wake j with
  | .event after => ∀ ms ∈ timeout, after ≤ nanos ms
  | .timer => timeout.isSome

end Script

/-- Behind the `n`-th original call of a loop, with the waits before it. -/
structure At (sc : Script) (timeout : Option Nat) (n : Nat) (s : State) : Prop where
  calls : s.calls = n
  adds : s.adds = sc.blocked n
  waits : s.waits = sc.blocked n
  armed : ∀ t ∈ s.timers, t.armed = false
  registered : s.registered = []
  cancelled : s.cancelled = none
  suspended : s.suspended = sc.elapsed timeout (sc.blocked n)

theorem at_start (timeout : Option Nat) : At sc timeout 0 .start :=
  ⟨rfl, rfl, rfl, by simp [State.start], rfl, rfl, rfl⟩

namespace State

/-- The condition timer, if there is a timeout. -/
def arm (s : State) (timeout : Option Nat) (fd : Int) (event : Hook.Event) : State :=
  match timeout with
  | some ms => { s with timers := ⟨fd, event, s.suspended + nanos ms, true⟩ :: s.timers }
  | none => s

/-- `if (timer) timer->cancel()`. -/
def unarm (s : State) (timeout : Option Nat) : State :=
  match timeout with
  | some _ => s.disarm
  | none => s

/-- Behind the `n`-th call, the timer, and the event, which is not registered where `addEvent` fails. -/
def asked (s : State) (timeout : Option Nat) (n : Nat) (fd : Int) (event : Hook.Event) (rt : Option Errno) : State :=
  let s := { s with calls := n + 1 }.arm timeout fd event
  { s with adds := s.adds + 1, registered := if rt = none then (fd, event) :: s.registered else s.registered }

end State

variable {timeout : Option Nat} {fd : Int} {fn : Int → Call} {io : IoFun} {n fuel : Nat}

theorem does_arm {event : Hook.Event} {p : Hooked Ret} :
    Does w sc s (arm timeout fd event >>= fun _ => p) cs done t r ↔
      Does w sc (s.arm timeout fd event) p cs done t r := by
  cases timeout with
  | none => rfl
  | some ms =>
    simp only [arm, Prog.call_bind, does_op]
    constructor
    · rintro ⟨_, cs', done', -, h, rfl, rfl⟩
      exact h
    · intro h
      exact ⟨(), cs, done, trivial, h, rfl, rfl⟩

theorem does_disarm {p : Hooked Ret} :
    Does w sc s (disarm timeout >>= fun _ => p) cs done t r ↔ Does w sc (s.unarm timeout) p cs done t r := by
  cases timeout with
  | none => rfl
  | some ms =>
    simp only [disarm, Prog.call_bind, does_op]
    constructor
    · rintro ⟨_, cs', done', -, h, rfl, rfl⟩
      exact h
    · intro h
      exact ⟨(), cs, done, trivial, h, rfl, rfl⟩

/-- The timer is armed, and the event registered if `addEvent` succeeds. -/
theorem does_ask {event : Hook.Event} {k : Option Errno → Hooked Ret} :
    Does w sc { s with calls := n + 1 } (arm timeout fd event >>= fun _ => addEvent fd event >>= k) cs done t r ↔
      Does w sc (s.asked timeout n fd event (sc.addEvent s.adds)) (k (sc.addEvent s.adds)) cs done t r := by
  have hadds : ({ s with calls := n + 1 }.arm timeout fd event).adds = s.adds := by
    cases timeout <;> rfl
  rw [does_arm, Prog.call_bind, does_op]
  constructor
  · rintro ⟨rt, cs', done', hrt, h, rfl, rfl⟩
    obtain rfl : rt = sc.addEvent s.adds := hrt.trans (congrArg sc.addEvent hadds)
    exact h
  · intro h
    exact ⟨sc.addEvent s.adds, cs, done, (congrArg sc.addEvent hadds).symm, h, rfl, rfl⟩

/-- **A wait**, behind which the function returns or goes on with `p`. -/
theorem does_wait {p : Hooked Ret} :
    Does w sc s (yield >>= fun _ => disarm timeout >>= fun _ =>
        cancelled >>= fun c => if c = some .etimedout then pure ⟨-1, .etimedout⟩ else p) cs done t r ↔
      s.Ends (sc.wake s.waits) ∧ Does w sc ((s.wake (sc.wake s.waits)).unarm timeout)
        (if ((s.wake (sc.wake s.waits)).unarm timeout).cancelled = some .etimedout then pure ⟨-1, .etimedout⟩ else p)
        cs done t r := by
  simp only [Prog.call_bind]
  rw [does_op]
  constructor
  · rintro ⟨_, cs', done', hends, h, rfl, rfl⟩
    rw [does_disarm, does_op] at h
    obtain ⟨c, cs', done', rfl, h, rfl, rfl⟩ := h
    exact ⟨hends, h⟩
  · rintro ⟨hends, h⟩
    refine ⟨.eagain, cs, done, hends, ?_, rfl, rfl⟩
    rw [does_disarm, does_op]
    exact ⟨_, cs, done, rfl, h, rfl, rfl⟩

/-- The next outcome. -/
theorem does_outcome {c : Call} {k : Ret → Hooked Ret} (hs : s.calls = n) :
    Does w sc s (orig c >>= k) cs done t r ↔ ∃ cs', cs = (c, sc.outcome n) :: cs' ∧
      Does w sc { s with calls := n + 1 } (k (sc.outcome n)) cs' done t r := by
  subst hs
  rw [Prog.call_bind, does_op]
  constructor
  · rintro ⟨_, cs', done', rfl, h, rfl, rfl⟩
    exact ⟨cs', rfl, h⟩
  · rintro ⟨cs', rfl, h⟩
    exact ⟨sc.outcome s.calls, cs', done, rfl, h, rfl, rfl⟩

/-! ## The loop -/

/-- `EINTR`. -/
theorem retry_eintr (hs : s.calls = n) (hi : (sc.outcome n).failed .eintr = true) :
    Does w sc s (retry fd fn io timeout (fuel + 1)) cs done t r ↔ ∃ cs', cs = (fn fd, sc.outcome n) :: cs' ∧
      Does w sc { s with calls := n + 1 } (retry fd fn io timeout fuel) cs' done t r := by
  rw [retry, does_outcome hs]
  simp only [hi, if_true]

/-- A conclusive outcome. -/
theorem retry_done (hs : s.calls = n) (hr : again (sc.outcome n) = false) :
    Does w sc s (retry fd fn io timeout (fuel + 1)) cs done t r ↔
      cs = [(fn fd, sc.outcome n)] ∧ done = true ∧ t = { s with calls := n + 1 } ∧ r = sc.outcome n := by
  obtain ⟨hi, ha⟩ := Bool.or_eq_false_iff.mp hr
  rw [retry, does_outcome hs]
  simp only [hi, ha, Bool.false_eq_true, if_false, Prog.pure_eq, does_ret]
  grind

theorem not_eintr {a : Ret} (h : a.failed .eagain = true) : a.failed .eintr = false := by
  unfold Ret.failed at h ⊢
  grind

/-- `EAGAIN`, where `addEvent` fails. -/
theorem retry_refused (hs : s.calls = n) (ha : (sc.outcome n).failed .eagain = true) {e : Errno}
    (hrt : sc.addEvent s.adds = some e) :
    Does w sc s (retry fd fn io timeout (fuel + 1)) cs done t r ↔ cs = [(fn fd, sc.outcome n)] ∧ done = true ∧
      t = (s.asked timeout n fd io.event (some e)).unarm timeout ∧ r = ⟨-1, e⟩ := by
  rw [retry, does_outcome hs]
  simp only [not_eintr ha, ha, Bool.false_eq_true, if_false, if_true, does_ask, hrt, does_disarm, Prog.pure_eq,
    does_ret]
  grind

/-- `EAGAIN`, where `addEvent` succeeds. -/
theorem retry_waits (hs : s.calls = n) (ha : (sc.outcome n).failed .eagain = true) (hrt : sc.addEvent s.adds = none) :
    Does w sc s (retry fd fn io timeout (fuel + 1)) cs done t r ↔ ∃ cs', cs = (fn fd, sc.outcome n) :: cs' ∧
      Does w sc (s.asked timeout n fd io.event none) (yield >>= fun _ => disarm timeout >>= fun _ =>
        cancelled >>= fun c => if c = some .etimedout then pure ⟨-1, .etimedout⟩ else retry fd fn io timeout fuel)
        cs' done t r := by
  rw [retry, does_outcome hs]
  simp only [not_eintr ha, ha, Bool.false_eq_true, if_false, if_true, does_ask, hrt]

/-! ## What a wait does -/

theorem At.waits_asked (hs : At sc timeout n s) (fd : Int) (event : Hook.Event) :
    (s.asked timeout n fd event none).waits = sc.blocked n := by
  rw [← hs.waits]
  cases timeout <;> rfl

theorem At.armed_asked (hs : At sc timeout n s) {event : Hook.Event} {x : Timer} :
    x ∈ (s.asked timeout n fd event none).armed ↔
      ∃ ms ∈ timeout, x = ⟨fd, event, s.suspended + nanos ms, true⟩ := by
  have hold : ∀ y ∈ s.timers, ¬ y.armed = true := fun y hy => by simp [hs.armed y hy]
  cases timeout with
  | none =>
    simp only [State.asked, State.arm, State.armed, List.mem_filter]
    constructor
    · rintro ⟨hx, harmed⟩
      exact absurd harmed (hold x hx)
    · rintro ⟨ms, hms, -⟩
      cases hms
  | some ms =>
    simp only [State.asked, State.arm, State.armed, List.mem_filter, List.mem_cons]
    constructor
    · rintro ⟨rfl | hx, harmed⟩
      · exact ⟨ms, rfl, rfl⟩
      · exact absurd harmed (hold x hx)
    · rintro ⟨ms', hms, rfl⟩
      cases hms
      exact ⟨Or.inl rfl, rfl⟩

/-- A wait can end as the script says if its length fits the timer. -/
theorem At.ends_iff (hs : At sc timeout n s) {event : Hook.Event} {x : End} (hx : sc.wake (sc.blocked n) = x) :
    (s.asked timeout n fd event none).Ends x ↔ sc.Fits timeout (sc.blocked n) := by
  have hsus : (s.asked timeout n fd event none).suspended = s.suspended := by
    cases timeout <;> rfl
  subst hx
  unfold Script.Fits
  cases sc.wake (sc.blocked n) with
  | event after =>
    simp only [State.Ends, hs.armed_asked, hsus]
    constructor
    · rintro ⟨-, hle⟩ ms hms
      have hle := hle _ ⟨ms, hms, rfl⟩
      simp only at hle
      omega
    · intro hle
      refine ⟨by simp [State.asked], ?_⟩
      rintro x ⟨ms, hms, rfl⟩
      have hle := hle ms hms
      simp only
      omega
  | timer =>
    simp only [State.Ends, hs.armed_asked]
    cases timeout with
    | none =>
      constructor
      · rintro ⟨-, x, hx, harmed, -⟩
        have hold := hs.armed x (List.mem_of_mem_head? hx)
        rw [hold] at harmed
        cases harmed
      · intro h
        cases h
    | some ms =>
      constructor
      · intro _
        rfl
      · intro _
        refine ⟨hs.cancelled, _, rfl, rfl, List.mem_cons_self, ?_⟩
        rintro x ⟨ms', hms, rfl⟩
        cases hms
        exact Nat.le_refl _

/-- Behind `EINTR`. -/
theorem At.interrupted (hs : At sc timeout n s) (hi : (sc.outcome n).failed .eagain = false) :
    At sc timeout (n + 1) { s with calls := n + 1 } := by
  have hb : sc.blocked (n + 1) = sc.blocked n := by simp [Script.blocked_succ, hi]
  constructor
  · rfl
  · exact hs.adds.trans hb.symm
  · exact hs.waits.trans hb.symm
  · exact hs.armed
  · exact hs.registered
  · exact hs.cancelled
  · rw [hb]
    exact hs.suspended

/-- Behind a wait that the event has ended. -/
theorem At.woken (hs : At sc timeout n s) (fd : Int) (event : Hook.Event)
    (ha : (sc.outcome n).failed .eagain = true) {after : Nat} (hx : sc.wake (sc.blocked n) = .event after) :
    At sc timeout (n + 1) (((s.asked timeout n fd event none).wake (.event after)).unarm timeout) := by
  have hb : sc.blocked (n + 1) = sc.blocked n + 1 := by simp [Script.blocked_succ, ha]
  have hlast : sc.lasts timeout (sc.blocked n) = after := by simp [Script.lasts, hx]
  have hel := sc.elapsed_succ timeout (sc.blocked n)
  have h₁ := hs.adds
  have h₂ := hs.waits
  have h₃ := hs.suspended
  cases timeout with
  | none =>
    refine ⟨rfl, ?_, ?_, hs.armed, hs.registered, hs.cancelled, ?_⟩
    all_goals simp only [State.unarm, State.wake, State.asked, State.arm, hb]; omega
  | some ms =>
    refine ⟨rfl, ?_, ?_, ?_, hs.registered, hs.cancelled, ?_⟩
    case refine_3 =>
      intro x hx
      rcases List.mem_cons.mp hx with rfl | hx
      · rfl
      · exact hs.armed x hx
    all_goals simp only [State.unarm, State.disarm, State.wake, State.asked, State.arm, hb]; omega

/-- Behind a wait that the timer has ended. -/
theorem At.timedOut (hs : At sc timeout n s) (fd : Int) (event : Hook.Event)
    (hx : sc.wake (sc.blocked n) = .timer) (ht : timeout.isSome = true) :
    (((s.asked timeout n fd event none).wake .timer).unarm timeout).cancelled = some .etimedout ∧
      (((s.asked timeout n fd event none).wake .timer).unarm timeout).suspended =
        sc.elapsed timeout (sc.blocked n + 1) := by
  obtain ⟨ms, rfl⟩ := Option.isSome_iff_exists.mp ht
  have hlast : sc.lasts (some ms) (sc.blocked n) = nanos ms := by simp [Script.lasts, hx]
  refine ⟨rfl, ?_⟩
  rw [sc.elapsed_succ, hlast, ← hs.suspended]
  rfl

/-! ## Where the loop ends -/

/-- The script lets the loop come to its `n`-th original call. -/
structure Script.Reaches (sc : Script) (timeout : Option Nat) (n : Nat) : Prop where
  inconclusive : ∀ i < n, again (sc.outcome i) = true
  added : ∀ j < sc.blocked n, sc.addEvent j = none
  woken : ∀ j < sc.blocked n, sc.wake j ≠ .timer
  fits : ∀ j < sc.blocked n, sc.Fits timeout j

theorem Script.Reaches.zero : sc.Reaches timeout 0 where
  inconclusive _ hi := absurd hi (Nat.not_lt_zero _)
  added _ hj := absurd hj (Nat.not_lt_zero _)
  woken _ hj := absurd hj (Nat.not_lt_zero _)
  fits _ hj := absurd hj (Nat.not_lt_zero _)

theorem Script.Reaches.interrupted (h : sc.Reaches timeout n) (hi : (sc.outcome n).failed .eintr = true)
    (ha : (sc.outcome n).failed .eagain = false) : sc.Reaches timeout (n + 1) := by
  have hb : sc.blocked (n + 1) = sc.blocked n := by simp [Script.blocked_succ, ha]
  constructor
  · intro i hlt
    rcases Nat.lt_succ_iff_lt_or_eq.mp hlt with hlt | rfl
    · exact h.inconclusive i hlt
    · simp [again, hi]
  · rw [hb]
    exact h.added
  · rw [hb]
    exact h.woken
  · rw [hb]
    exact h.fits

theorem Script.Reaches.waited (h : sc.Reaches timeout n) (ha : (sc.outcome n).failed .eagain = true)
    (hadd : sc.addEvent (sc.blocked n) = none) (hwake : sc.wake (sc.blocked n) ≠ .timer)
    (hfits : sc.Fits timeout (sc.blocked n)) : sc.Reaches timeout (n + 1) := by
  have hb : sc.blocked (n + 1) = sc.blocked n + 1 := by simp [Script.blocked_succ, ha]
  constructor
  · intro i hlt
    rcases Nat.lt_succ_iff_lt_or_eq.mp hlt with hlt | rfl
    · exact h.inconclusive i hlt
    · simp [again, ha]
  all_goals
    intro j hlt
    rw [hb] at hlt
    rcases Nat.lt_succ_iff_lt_or_eq.mp hlt with hlt | rfl
  · exact h.added j hlt
  · exact hadd
  · exact h.woken j hlt
  · exact hwake
  · exact h.fits j hlt
  · exact hfits

/-- **How the loop ends** at its `n`-th original call: whether it returns, how many original calls and waits there have
been, and the result. -/
inductive Fate (sc : Script) (timeout : Option Nat) (n : Nat) : Bool → Nat → Nat → Ret → Prop where
  | unrolled : Fate sc timeout n false n (sc.blocked n) ⟨-1, .eagain⟩
  | concluded (hr : again (sc.outcome n) = false) : Fate sc timeout n true (n + 1) (sc.blocked n) (sc.outcome n)
  | refused {e : Errno} (ha : (sc.outcome n).failed .eagain = true) (hrt : sc.addEvent (sc.blocked n) = some e) :
    Fate sc timeout n true (n + 1) (sc.blocked n) ⟨-1, e⟩
  | timedOut (ha : (sc.outcome n).failed .eagain = true) (hrt : sc.addEvent (sc.blocked n) = none)
      (hwake : sc.wake (sc.blocked n) = .timer) (ht : timeout.isSome = true) :
    Fate sc timeout n true (n + 1) (sc.blocked n + 1) ⟨-1, .etimedout⟩

/-- The first `n` original calls. -/
def Script.callsOf (sc : Script) (c : Call) (n : Nat) : List (Call × Ret) :=
  (List.range n).map fun i => (c, sc.outcome i)

theorem Script.callsOf_succ (c : Call) (n : Nat) : sc.callsOf c (n + 1) = sc.callsOf c n ++ [(c, sc.outcome n)] := by
  simp [Script.callsOf, List.range_succ]

/-- **Every run of the loop** ends so. The induction is on the rounds: each is an interrupted call, or a call with a
wait that the event ends, until one of the ends is reached. -/
theorem retry_fate : ∀ fuel {s : State} {n : Nat} {cs : List (Call × Ret)}, At sc timeout n s → sc.Reaches timeout n →
    Does w sc s (retry fd fn io timeout fuel) cs done t r → ∃ m calls waits, sc.Reaches timeout m ∧
      Fate sc timeout m done calls waits r ∧ sc.callsOf (fn fd) n ++ cs = sc.callsOf (fn fd) calls ∧
      t.suspended = sc.elapsed timeout waits
  | 0, s, n, cs, hs, hn, h => by
    simp only [retry, Prog.call_bind, Prog.pure_eq, does_op, does_ret] at h
    obtain ⟨_, cs', done', -, ⟨rfl, rfl, rfl, rfl⟩, rfl, rfl⟩ := h
    exact ⟨n, n, _, hn, .unrolled, List.append_nil _, hs.suspended⟩
  | fuel + 1, s, n, cs, hs, hn, h => by
    cases hr : again (sc.outcome n) with
    | false =>
      obtain ⟨rfl, rfl, rfl, rfl⟩ := (retry_done hs.calls hr).mp h
      exact ⟨n, n + 1, _, hn, .concluded hr, (sc.callsOf_succ _ _).symm, hs.suspended⟩
    | true =>
      cases ha : (sc.outcome n).failed .eagain with
      | false =>
        have hi : (sc.outcome n).failed .eintr = true := by simpa [again, ha] using hr
        obtain ⟨cs', rfl, h'⟩ := (retry_eintr hs.calls hi).mp h
        obtain ⟨m, calls, waits, hm, hfate, hcs, hsus⟩ :=
          retry_fate fuel (hs.interrupted ha) (hn.interrupted hi ha) h'
        refine ⟨m, calls, waits, hm, hfate, ?_, hsus⟩
        rw [← hcs, sc.callsOf_succ, List.append_assoc, List.singleton_append]
      | true =>
        cases hrt : sc.addEvent (sc.blocked n) with
        | some e =>
          obtain ⟨rfl, rfl, rfl, rfl⟩ := (retry_refused hs.calls ha (hs.adds ▸ hrt)).mp h
          refine ⟨n, n + 1, _, hn, .refused ha hrt, (sc.callsOf_succ _ _).symm, ?_⟩
          rw [← hs.suspended]
          cases timeout <;> rfl
        | none =>
          obtain ⟨cs', rfl, h'⟩ := (retry_waits hs.calls ha (hs.adds ▸ hrt)).mp h
          have hwaits := hs.waits_asked fd io.event
          rw [does_wait, hwaits] at h'
          obtain ⟨hends, h'⟩ := h'
          have hfits := (hs.ends_iff rfl).mp hends
          cases hx : sc.wake (sc.blocked n) with
          | event after =>
            rw [hx] at h'
            have hs' := hs.woken fd io.event ha hx
            rw [hs'.cancelled, if_neg (by simp)] at h'
            obtain ⟨m, calls, waits, hm, hfate, hcs, hsus⟩ :=
              retry_fate fuel hs' (hn.waited ha hrt (by simp [hx]) hfits) h'
            refine ⟨m, calls, waits, hm, hfate, ?_, hsus⟩
            rw [← hcs, sc.callsOf_succ, List.append_assoc, List.singleton_append]
          | timer =>
            have ht : timeout.isSome = true := by
              unfold Script.Fits at hfits
              rwa [hx] at hfits
            obtain ⟨hc, hsus⟩ := hs.timedOut fd io.event hx ht
            rw [hx, hc, if_pos rfl, Prog.pure_eq, does_ret] at h'
            obtain ⟨rfl, rfl, rfl, rfl⟩ := h'
            exact ⟨n, n + 1, _, hn, .timedOut ha hrt hx ht, (sc.callsOf_succ _ _).symm, hsus⟩

theorem Script.blocked_mono {m : Nat} (h : n ≤ m) : sc.blocked n ≤ sc.blocked m := by
  induction h with
  | refl => exact Nat.le_refl _
  | step _ ih =>
    rw [sc.blocked_succ]
    omega

/-- **The loop comes to its end**: from its `n`-th original call, with as many rounds as are left. -/
theorem retry_exists {m calls waits : Nat} (hm : sc.Reaches timeout m) (hfate : Fate sc timeout m true calls waits r) :
    ∀ k {s : State} {n : Nat}, n + k = m → At sc timeout n s →
      ∃ cs t, Does w sc s (retry fd fn io timeout (k + 1)) cs true t r ∧ t.suspended = sc.elapsed timeout waits
  | 0, s, n, hn, hs => by
    obtain rfl : n = m := hn
    cases hfate with
    | concluded hr => exact ⟨_, _, (retry_done hs.calls hr).mpr ⟨rfl, rfl, rfl, rfl⟩, hs.suspended⟩
    | refused ha hrt =>
      refine ⟨_, _, (retry_refused hs.calls ha (hs.adds ▸ hrt)).mpr ⟨rfl, rfl, rfl, rfl⟩, ?_⟩
      rw [← hs.suspended]
      cases timeout <;> rfl
    | timedOut ha hrt hx ht =>
      have hwaits := hs.waits_asked fd io.event
      have hfits : sc.Fits timeout (sc.blocked n) := by
        unfold Script.Fits
        rwa [hx]
      obtain ⟨hc, hsus⟩ := hs.timedOut fd io.event hx ht
      refine ⟨[(fn fd, sc.outcome n)], ((s.asked timeout n fd io.event none).wake .timer).unarm timeout, ?_, hsus⟩
      rw [retry_waits hs.calls ha (hs.adds ▸ hrt)]
      refine ⟨[], rfl, ?_⟩
      rw [does_wait, hwaits]
      refine ⟨(hs.ends_iff rfl).mpr hfits, ?_⟩
      rw [hx, hc, if_pos rfl, Prog.pure_eq, does_ret]
      exact ⟨rfl, rfl, rfl, rfl⟩
  | k + 1, s, n, hn, hs => by
    have hlt : n < m := by omega
    have hr := hm.inconclusive n hlt
    cases ha : (sc.outcome n).failed .eagain with
    | false =>
      have hi : (sc.outcome n).failed .eintr = true := by simpa [again, ha] using hr
      obtain ⟨cs, t, h, hsus⟩ := retry_exists hm hfate k (by omega) (hs.interrupted ha)
      exact ⟨_, t, (retry_eintr hs.calls hi).mpr ⟨cs, rfl, h⟩, hsus⟩
    | true =>
      have hb : sc.blocked n < sc.blocked m := by
        have hle := sc.blocked_mono hlt
        rw [sc.blocked_succ, if_pos ha] at hle
        omega
      have hrt := hm.added _ hb
      have hwaits := hs.waits_asked fd io.event
      cases hx : sc.wake (sc.blocked n) with
      | timer => exact absurd hx (hm.woken _ hb)
      | event after =>
        have hs' := hs.woken fd io.event ha hx
        obtain ⟨cs, t, h, hsus⟩ := retry_exists hm hfate k (by omega) hs'
        refine ⟨_, t, (retry_waits hs.calls ha (hs.adds ▸ hrt)).mpr ⟨cs, rfl, ?_⟩, hsus⟩
        rw [does_wait, hwaits]
        refine ⟨(hs.ends_iff rfl).mpr (hm.fits _ hb), ?_⟩
        rw [hx, hs'.cancelled, if_neg (by simp)]
        exact h

/-! ## `do_io` -/

/-- The call waits for its descriptor: the hooks are enabled, and the descriptor is a managed socket that is blocking to
the user. -/
structure Blocks (w : World) (hook : Bool) (fd : Int) (c : Nat) : Prop where
  hook : hook = true
  socket : w.socket fd = some c
  blocking : (w.ctx c).userNonblock = false

/-- An operation that only reads `w`. -/
theorem does_read {o : Op} {k : o.Reply → Hooked Ret} {v : o.Reply} (ha : ∀ a, allowed w sc s o a ↔ a = v)
    (hn : next sc s o v = s) (hc : callOf o v = []) (ho : o ≠ .unrolled) :
    Does w sc s (.op o k) cs done t r ↔ Does w sc s (k v) cs done t r := by
  have hne : (o != .unrolled) = true := bne_iff_ne.mpr ho
  rw [does_op]
  constructor
  · rintro ⟨a, cs', done', hv, h, rfl, rfl⟩
    obtain rfl := (ha a).mp hv
    rw [hn] at h
    simpa [hc, hne] using h
  · intro h
    refine ⟨v, cs, done, (ha v).mpr rfl, ?_, by simp [hc], by simp [hne]⟩
    rwa [hn]

variable {hook : Bool} {c : Nat}

theorem Blocks.facts (h : Blocks w hook fd c) :
    w.reg fd = some c ∧ (w.ctx c).isClosed = false ∧ (w.ctx c).isSocket = true := by
  have hsock := h.socket
  unfold World.socket at hsock
  rw [Option.filter_eq_some_iff] at hsock
  simpa using hsock

/-- Such a call is the loop. -/
theorem does_doIo (h : Blocks w hook fd c) :
    Does w sc s (doIo hook fuel fd fn io) cs done t r ↔
      Does w sc s (retry fd fn io ((w.ctx c).getTimeout io.timeoutSo) fuel) cs done t r := by
  obtain ⟨hreg, hopen, hsock⟩ := h.facts
  unfold doIo
  simp only [h.hook, Bool.not_true, Bool.false_eq_true, if_false, Prog.call_bind]
  rw [does_read (v := some c) (fun a => by simp [allowed, Calls.allowed, hreg]) rfl rfl (by simp)]
  dsimp only
  rw [does_read (v := false) (fun a => by simp [allowed, Calls.allowed, hopen]) rfl rfl (by simp)]
  simp only [Bool.false_eq_true, if_false]
  rw [does_read (v := true) (fun a => by simp [allowed, Calls.allowed, hsock]) rfl rfl (by simp)]
  simp only [Bool.not_true, Bool.false_eq_true, if_false]
  rw [does_read (v := false) (fun a => by simp [allowed, Calls.allowed, h.blocking]) rfl rfl (by simp)]
  simp only [Bool.false_eq_true, if_false]
  rw [does_read (v := (w.ctx c).getTimeout io.timeoutSo) (fun a => Iff.rfl) rfl rfl (by simp)]

/-- Every other call passes the original function's result on, and is not suspended. -/
theorem doIo_passes {es : Events} (hb : ∀ c, ¬ Blocks w hook fd c)
    (h : Run (sem w sc) s (doIo hook fuel fd fn io) es t r) : t.suspended = s.suspended := by
  have hpass : ∀ {es s}, Run (sem w sc) s (orig (fn fd)) es t r → t.suspended = s.suspended := by
    intro es s h
    obtain ⟨a, es', -, -, h⟩ := run_op.mp h
    obtain ⟨-, rfl, -⟩ := run_ret.mp h
    rfl
  unfold doIo at h
  split at h
  · exact hpass h
  rename_i hhook
  obtain ⟨c, es', hc, -, h⟩ := run_op.mp h
  cases c with
  | none => exact hpass h
  | some c =>
    obtain ⟨b, es', hb₁, -, h⟩ := run_op.mp h
    dsimp only [Prog.bind] at h
    split at h
    · obtain ⟨-, rfl, -⟩ := run_ret.mp h
      rfl
    rename_i hopen
    obtain ⟨b', es', hb₂, -, h⟩ := run_op.mp h
    dsimp only [Prog.bind] at h
    split at h
    · exact hpass h
    rename_i hsock
    obtain ⟨b'', es', hb₃, -, h⟩ := run_op.mp h
    dsimp only [Prog.bind] at h
    split at h
    · exact hpass h
    rename_i hblock
    refine absurd ⟨by simpa using hhook, ?_, ?_⟩ (hb c)
    · have hreg : w.reg fd = some c := Eq.symm (by simpa [sem, allowed, Calls.allowed] using hc)
      have hopen' : (w.ctx c).isClosed = false := by
        rw [← show b = (w.ctx c).isClosed from hb₁]
        simpa using hopen
      have hsock' : (w.ctx c).isSocket = true := by
        rw [← show b' = (w.ctx c).isSocket from hb₂]
        simpa using hsock
      simp [World.socket, hreg, hopen', hsock']
    · rw [← show b'' = (w.ctx c).userNonblock from hb₃]
      simpa using hblock

/-- What a run of such a call is. -/
theorem doIo_fate (hb : Blocks w hook fd c) {es : Events}
    (h : Run (sem w sc) .start (doIo hook fuel fd fn io) es t r) :
    ∃ n made waits, sc.Reaches ((w.ctx c).getTimeout io.timeoutSo) n ∧
      Fate sc ((w.ctx c).getTimeout io.timeoutSo) n (decide (Returned es)) made waits r ∧
      calls es = sc.callsOf (fn fd) made ∧
      t.suspended = sc.elapsed ((w.ctx c).getTimeout io.timeoutSo) waits := by
  have hdoes : Does w sc .start (doIo hook fuel fd fn io) (calls es) (decide (Returned es)) t r := ⟨es, h, rfl, by simp⟩
  obtain ⟨n, made, waits, hn, hfate, hcs, hsus⟩ := retry_fate fuel (at_start _) .zero ((does_doIo hb).mp hdoes)
  exact ⟨n, made, waits, hn, hfate, hcs, hsus⟩

/-- And every such end is that of a run. -/
theorem doIo_exists (fn : Int → Call) (io : IoFun) (hb : Blocks w hook fd c) {made waits : Nat}
    (hn : sc.Reaches ((w.ctx c).getTimeout io.timeoutSo) n)
    (hfate : Fate sc ((w.ctx c).getTimeout io.timeoutSo) n true made waits r) :
    ∃ es t, Run (sem w sc) .start (doIo hook (n + 1) fd fn io) es t r ∧ Returned es ∧
      t.suspended = sc.elapsed ((w.ctx c).getTimeout io.timeoutSo) waits := by
  obtain ⟨cs, t, h, hsus⟩ := retry_exists hn hfate n (Nat.zero_add n) (at_start _)
  obtain ⟨es, hrun, -, hdone⟩ := (does_doIo hb).mpr h
  exact ⟨es, t, hrun, hdone.mp rfl, hsus⟩

/-! ## A faithful blocking call -/

/-- The `n`-th outcome is the first conclusive one, and no wait before it is ended by the timer. -/
structure Script.Concludes (sc : Script) (n : Nat) : Prop where
  inconclusive : ∀ i < n, again (sc.outcome i) = true
  conclusive : again (sc.outcome n) = false
  woken : ∀ j < sc.blocked n, sc.wake j ≠ .timer

/-- The wait behind the `n`-th outcome is the first that the timer ends, and no outcome before it is conclusive. -/
structure Script.TimesOut (sc : Script) (n : Nat) : Prop where
  inconclusive : ∀ i < n, again (sc.outcome i) = true
  blocks : (sc.outcome n).failed .eagain = true
  woken : ∀ j < sc.blocked n, sc.wake j ≠ .timer
  expires : sc.wake (sc.blocked n) = .timer

/-- **A faithful blocking call.** Where `addEvent` succeeds, a call that returns does so with the first conclusive
outcome, unless a wait before it is ended by the timer, of which there is one only with a timeout; then the call
returns `ETIMEDOUT`. The original function is called for the outcomes up to there, and not again. And the call does
return, if the script has such an end. -/
theorem faithful (w : World) (sc : Script) (hook : Bool) (fd : Int) (fn : Int → Call) (io : IoFun) (c : Nat)
    (hb : Blocks w hook fd c) (hadd : ∀ j, sc.addEvent j = none) :
    (∀ fuel es t r, Run (sem w sc) .start (doIo hook fuel fd fn io) es t r → Returned es →
      again r = false ∧ ∃ n, calls es = sc.callsOf (fn fd) (n + 1) ∧
        (sc.Concludes n ∧ r = sc.outcome n ∨
          sc.TimesOut n ∧ r = ⟨-1, .etimedout⟩ ∧ ((w.ctx c).getTimeout io.timeoutSo).isSome = true)) ∧
      ∀ n, sc.Concludes n ∨ sc.TimesOut n ∧ ((w.ctx c).getTimeout io.timeoutSo).isSome = true →
        (∀ j < sc.blocked n, sc.Fits ((w.ctx c).getTimeout io.timeoutSo) j) →
        ∃ es t r, Run (sem w sc) .start (doIo hook (n + 1) fd fn io) es t r ∧ Returned es := by
  constructor
  · intro fuel es t r h hret
    obtain ⟨n, made, waits, hn, hfate, hcs, -⟩ := doIo_fate hb h
    rw [decide_eq_true hret] at hfate
    cases hfate with
    | concluded hr => exact ⟨hr, n, hcs, Or.inl ⟨⟨hn.inconclusive, hr, hn.woken⟩, rfl⟩⟩
    | refused ha hrt =>
      rw [hadd] at hrt
      cases hrt
    | timedOut ha hrt hwake ht =>
      exact ⟨rfl, n, hcs, Or.inr ⟨⟨hn.inconclusive, ha, hn.woken, hwake⟩, rfl, ht⟩⟩
  · intro n hend hfits
    rcases hend with hend | ⟨hend, ht⟩
    · have hn : sc.Reaches ((w.ctx c).getTimeout io.timeoutSo) n :=
        ⟨hend.inconclusive, fun j _ => hadd j, hend.woken, hfits⟩
      obtain ⟨es, t, h, hret, -⟩ := doIo_exists fn io hb hn (.concluded hend.conclusive)
      exact ⟨es, t, _, h, hret⟩
    · have hn : sc.Reaches ((w.ctx c).getTimeout io.timeoutSo) n :=
        ⟨hend.inconclusive, fun j _ => hadd j, hend.woken, hfits⟩
      obtain ⟨es, t, h, hret, -⟩ := doIo_exists fn io hb hn (.timedOut hend.blocks (hadd _) hend.expires ht)
      exact ⟨es, t, _, h, hret⟩

/-- A read whose first call is interrupted, and whose second call gets 7 bytes behind a wait of 3 nanoseconds. -/
def Script.patient : Script where
  outcome n := if n = 0 then ⟨-1, .eintr⟩ else if n = 1 then ⟨-1, .eagain⟩ else ⟨7, .other 0⟩
  addEvent _ := none
  wake _ := .event 3
  soError := (⟨0, .other 0⟩, none)

theorem faithful_patient : ∃ es t r,
    Run (sem (timedSocket 1) .patient) .start (doIo true 3 5 (.read · 0 10) .reads) es t r ∧ Returned es ∧
      again r = false := by
  have h := faithful (timedSocket 1) .patient true 5 (.read · 0 10) .reads 0 ⟨rfl, rfl, rfl⟩ fun _ => rfl
  have hfits : ∀ j, Script.patient.Fits (some 1) j := by
    intro j ms hms
    cases hms
    decide
  obtain ⟨es, t, r, hrun, hret⟩ := h.2 2 (Or.inl ⟨by decide, rfl, by decide⟩) fun j _ => hfits j
  exact ⟨es, t, r, hrun, hret, (h.1 3 es t r hrun hret).1⟩

/-! ## The timeout -/

/-- No wait is longer than the timeout. -/
theorem lasts_le {ms : Nat} {j : Nat} (h : sc.Fits (some ms) j) : sc.lasts (some ms) j ≤ nanos ms := by
  unfold Script.Fits at h
  unfold Script.lasts
  cases hx : sc.wake j with
  | event after =>
    rw [hx] at h
    exact h ms rfl
  | timer => exact Nat.le_refl _

/-- So `k` waits take `k` times the timeout at most. -/
theorem elapsed_le {ms : Nat} : ∀ k, (∀ j < k, sc.Fits (some ms) j) → sc.elapsed (some ms) k ≤ k * nanos ms
  | 0, _ => Nat.zero_le _
  | k + 1, h => by
    have ih := elapsed_le k fun j hj => h j (Nat.lt_succ_of_lt hj)
    have hlast := lasts_le (h k (Nat.lt_succ_self k))
    rw [sc.elapsed_succ, Nat.succ_mul]
    omega

/-- The call waits a second time: there are two `EAGAIN`s before a conclusive outcome, and `addEvent` succeeds for
both. -/
def Script.WaitsTwice (sc : Script) : Prop :=
  ∃ n, (∀ i < n, again (sc.outcome i) = true) ∧ 2 ≤ sc.blocked n ∧ sc.addEvent 0 = none ∧ sc.addEvent 1 = none

/-- The second `EAGAIN`. -/
theorem Script.second_blocked : ∀ {n}, 2 ≤ sc.blocked n →
    ∃ m < n, sc.blocked m = 1 ∧ (sc.outcome m).failed .eagain = true
  | 0, h => by simp [Script.blocked] at h
  | n + 1, h => by
    by_cases hn : 2 ≤ sc.blocked n
    · obtain ⟨m, hlt, hm⟩ := Script.second_blocked hn
      exact ⟨m, Nat.lt_succ_of_lt hlt, hm⟩
    · rw [sc.blocked_succ] at h
      split at h
      · exact ⟨n, Nat.lt_succ_self n, by omega, ‹_›⟩
      · omega

/-- The waits of a call can all end so. -/
theorem Fate.fits {made waits : Nat} (h : Fate sc timeout n done made waits r) (hn : sc.Reaches timeout n) :
    ∀ j < waits, sc.Fits timeout j := by
  cases h with
  | unrolled => exact hn.fits
  | concluded _ => exact hn.fits
  | refused _ _ => exact hn.fits
  | timedOut _ _ hwake ht =>
    intro j hj
    rcases Nat.lt_succ_iff_lt_or_eq.mp hj with hj | rfl
    · exact hn.fits j hj
    · unfold Script.Fits
      rwa [hwake]

/-- A call with two waits waits twice. -/
theorem Fate.waitsTwice {made waits : Nat} (h : Fate sc timeout n done made waits r) (hn : sc.Reaches timeout n)
    (hwaits : 2 ≤ waits) : sc.WaitsTwice := by
  have hplain : 2 ≤ sc.blocked n → sc.WaitsTwice := fun hb =>
    ⟨n, hn.inconclusive, hb, hn.added 0 (by omega), hn.added 1 (by omega)⟩
  cases h with
  | unrolled => exact hplain hwaits
  | concluded _ => exact hplain hwaits
  | refused _ _ => exact hplain hwaits
  | timedOut ha hrt _ _ =>
    have hb : sc.blocked (n + 1) = sc.blocked n + 1 := by simp [Script.blocked_succ, ha]
    have hadd : ∀ j < sc.blocked n + 1, sc.addEvent j = none := by
      intro j hj
      rcases Nat.lt_succ_iff_lt_or_eq.mp hj with hj | rfl
      · exact hn.added j hj
      · exact hrt
    refine ⟨n + 1, fun i hi => ?_, by omega, hadd 0 (by omega), hadd 1 (by omega)⟩
    rcases Nat.lt_succ_iff_lt_or_eq.mp hi with hi | rfl
    · exact hn.inconclusive i hi
    · simp [again, ha]

/-- The first wait is ended by the event after a nanosecond, the second by the timer. -/
def late : Nat → End
  | 0 => .event 1
  | _ => .timer

/-- With these wake-ups a call that waits twice takes longer than its timeout. -/
theorem exceeds (fn : Int → Call) (io : IoFun) {ms : Nat} (hb : Blocks w hook fd c)
    (hms : (w.ctx c).getTimeout io.timeoutSo = some ms) (hpos : 0 < ms) (h : sc.WaitsTwice) : ∃ fuel es t r,
      Run (sem w { sc with wake := late }) .start (doIo hook fuel fd fn io) es t r ∧ Returned es ∧
        nanos ms < t.suspended := by
  obtain ⟨n, hagain, htwo, h₀, h₁⟩ := h
  obtain ⟨m, hlt, hone, ha⟩ := Script.second_blocked htwo
  have hfirst : ∀ j, j < Script.blocked { sc with wake := late } m → j = 0 := by
    intro j hj
    have hone' : Script.blocked { sc with wake := late } m = 1 := hone
    omega
  have hm : Script.Reaches { sc with wake := late } (some ms) m := by
    constructor
    · exact fun i hi => hagain i (by omega)
    all_goals
      intro j hj
      obtain rfl := hfirst j hj
    · exact h₀
    · exact End.noConfusion
    · intro ms' hms'
      obtain rfl := Option.some.inj hms'
      have hone : 1 ≤ nanos ms := by
        unfold nanos
        omega
      exact hone
  have hfate : Fate { sc with wake := late } (some ms) m true (m + 1) (sc.blocked m + 1) ⟨-1, .etimedout⟩ := by
    have hb' : Script.blocked { sc with wake := late } m = 1 := hone
    refine .timedOut ha ?_ ?_ rfl
    · rw [hb']
      exact h₁
    · rw [hb']
      rfl
  rw [← hms] at hm hfate
  obtain ⟨es, t, hrun, hret, hsus⟩ := doIo_exists fn io hb hm hfate
  refine ⟨m + 1, es, t, _, hrun, hret, ?_⟩
  have hfirst : Script.lasts { sc with wake := late } (some ms) 0 = 1 := rfl
  have hsecond : Script.lasts { sc with wake := late } (some ms) 1 = nanos ms := rfl
  rw [hsus, hone, hms, Script.elapsed_succ, Script.elapsed_succ, hfirst, hsecond]
  omega

/-- **A timeout bounds every wait, but not the call.** For a socket with a timeout, the time that a call is suspended is
within the timeout however its waits end, if and only if it does not come to a second wait (or the timeout is `0`): each
wait has a timer of its own, with the whole of the timeout. -/
theorem bounded_iff (w : World) (sc : Script) (hook : Bool) (fd : Int) (fn : Int → Call) (io : IoFun) (c ms : Nat)
    (hreg : w.reg fd = some c) (hms : (w.ctx c).getTimeout io.timeoutSo = some ms) :
    (∀ wake fuel es t r, Run (sem w { sc with wake := wake }) .start (doIo hook fuel fd fn io) es t r →
      t.suspended ≤ nanos ms) ↔ ¬ (Blocks w hook fd c ∧ 0 < ms ∧ sc.WaitsTwice) := by
  constructor
  · rintro hle ⟨hb, hpos, htwice⟩
    obtain ⟨fuel, es, t, r, hrun, -, hlt⟩ := exceeds fn io hb hms hpos htwice
    have hle := hle late fuel es t r hrun
    omega
  · intro hnot wake fuel es t r hrun
    by_cases hb : Blocks w hook fd c
    · obtain ⟨n, made, waits, hn, hfate, -, hsus⟩ := doIo_fate hb hrun
      rw [hms] at hn hfate hsus
      have hle := elapsed_le waits (hfate.fits hn)
      rw [← hsus] at hle
      by_cases hwaits : 2 ≤ waits
      · have htwice : sc.WaitsTwice := hfate.waitsTwice hn hwaits
        have hzero : ms = 0 := Nat.eq_zero_of_not_pos fun hpos => hnot ⟨hb, hpos, htwice⟩
        subst hzero
        simpa [nanos] using hle
      · have hone : waits * nanos ms ≤ 1 * nanos ms := Nat.mul_le_mul_right _ (by omega)
        omega
    · have hother : ∀ c', ¬ Blocks w hook fd c' := by
        intro c' hb'
        have hreg' := hb'.facts.1
        rw [hreg] at hreg'
        cases hreg'
        exact hb hb'
      rw [doIo_passes hother hrun]
      exact Nat.zero_le _

/-- The call is woken again and again, and there is never anything for it. -/
def Script.stuck : Script where
  outcome _ := ⟨-1, .eagain⟩
  addEvent _ := none
  wake := late
  soError := (⟨0, .other 0⟩, none)

theorem stuck_waitsTwice : Script.stuck.WaitsTwice :=
  ⟨2, fun _ _ => rfl, by decide, rfl, rfl⟩

theorem bounded_iff_stuck : ¬ ∀ wake fuel es t r,
    Run (sem (timedSocket 1) { Script.stuck with wake := wake }) .start (doIo true fuel 5 (.read · 0 10) .reads)
      es t r → t.suspended ≤ nanos 1 := fun h =>
  (bounded_iff (timedSocket 1) .stuck true 5 (.read · 0 10) .reads 0 1 rfl rfl).mp h
    ⟨⟨rfl, rfl, rfl⟩, Nat.one_pos, stuck_waitsTwice⟩

/-- A call with a timeout of a millisecond that is suspended for longer than that. -/
theorem not_bounded : ¬ ∀ w sc hook fuel fd fn io c ms es t r, World.reg w fd = some c →
    (w.ctx c).getTimeout io.timeoutSo = some ms → Run (sem w sc) .start (doIo hook fuel fd fn io) es t r →
      t.suspended ≤ nanos ms := by
  intro h
  have hblocks : Blocks (timedSocket 1) true 5 0 := ⟨rfl, rfl, rfl⟩
  obtain ⟨fuel, es, t, r, hrun, -, hlt⟩ := exceeds (.read · 0 10) .reads hblocks rfl Nat.one_pos stuck_waitsTwice
  have hle := h _ _ _ fuel 5 _ .reads 0 1 es t r rfl rfl hrun
  omega

end Sylar.Waits
