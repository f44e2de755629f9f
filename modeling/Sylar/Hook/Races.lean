import Sylar.Hook.World

/-!
# Timers against events

A call that waits, while the event may become ready, timers may expire and their callbacks run, in any order and at any
moment (`system`). A timer that has expired is taken out of the timer set before its callback runs, and `cancel()` finds
only a timer of the set. The callback sets `cancelled`, if it is not set, and goes on to cancel the event, which resumes
the fiber if the event is registered and does nothing otherwise.

- `stages`: the stages of a call, as a monitor; `goes_body`: the two functions go through them;
- `Known`: what is known of the state in every stage; `known_op`, `known_env`: it is kept by every operation, and by
  every act of the environment, as long as no event comes in between (`Prompt`);
- `timed_out`: then a call that finds `cancelled` set was resumed by the callback of its timer.
-/

namespace Sylar.Races

open Trans Hook Calls

/-! ## A call and its environment -/

/-- What has resumed the fiber: the event, or the `cancelEvent` of a callback. -/
inductive Cause where
  | event
  | timer
deriving DecidableEq, Repr

/-- A condition timer: in the timer set, taken out of it with its callback still to run, with a callback that has set
`cancelled` and is to cancel the event, or done with. -/
inductive Timer where
  | pending
  | expired
  | cancelling
  | spent
deriving DecidableEq, Repr

/-- A call that waits: its timers, the latest first, whether the event is registered, what has queued the fiber and what
has resumed it, and `tinfo->cancelled`. `tested` is what had resumed the call that has just tested `cancelled`. -/
structure State where
  timers : List Timer
  registered : Bool
  queued : Option Cause
  woken : Option Cause
  cancelled : Option Errno
  tested : Option Cause
deriving DecidableEq, Repr

namespace State

/-- At the begin of a call. -/
def start : State := ⟨[], false, none, none, none, none⟩

/-- The event is triggered, or cancelled: it is no longer registered, and the fiber is queued. -/
def trigger (s : State) (c : Cause) : State :=
  if s.registered then { s with registered := false, queued := some c } else s

/-- The callback of a timer up to its test of `cancelled`, and with `t->cancelled = ETIMEDOUT`. -/
def callback (s : State) (i : Nat) : State :=
  if s.cancelled = none then { s with timers := s.timers.set i .cancelling, cancelled := some .etimedout }
  else { s with timers := s.timers.set i .spent }

/-- `timer->cancel()`, of the latest timer. -/
def cancelTimer (s : State) : State :=
  match s.timers with
  | .pending :: ts => { s with timers := .spent :: ts }
  | _ => s

end State

/-- What an operation can answer. The fiber is resumed when it has been queued. -/
def allowed (s : State) : (o : Op) → o.Reply → Prop
  | .yield, _ => s.queued.isSome = true
  | .cancelled, x => x = s.cancelled
  | _, _ => True

instance (s : State) : (o : Op) → (r : o.Reply) → Decidable (allowed s o r)
  | .yield, _ => inferInstanceAs (Decidable (s.queued.isSome = true))
  | .cancelled, x => inferInstanceAs (Decidable ((x : Option Errno) = s.cancelled))
  | .orig _, _ | .soError _, _ | .get _ _, _ | .isClosed _, _ | .isSocket _, _ | .getUserNonblock _, _ => isTrue trivial
  | .setUserNonblock _ _, _ | .getSysNonblock _, _ | .getTimeout _ _, _ | .setTimeout _ _ _, _ => isTrue trivial
  | .del _, _ | .getIom, _ | .cancelAll _, _ | .addTimer _, _ | .addConditionTimer _ _ _, _ => isTrue trivial
  | .addEvent _ _, _ | .cancelTimer, _ | .unrolled, _ => isTrue trivial

/-- What an operation does. -/
def next (s : State) : (o : Op) → o.Reply → State
  | .addConditionTimer _ _ _, _ => { s with timers := .pending :: s.timers, tested := none }
  | .addEvent _ _, rt => { s with registered := s.registered || rt.isNone, tested := none }
  | .yield, _ => { s with queued := none, woken := s.queued, tested := none }
  | .cancelTimer, _ => { s.cancelTimer with tested := none }
  | .cancelled, _ => { s with tested := s.woken }
  | _, _ => { s with tested := none }

/-- **The meaning of the operations.** Nothing is assumed of what the other ones answer. -/
def sem : Sem Op Op.Reply State where
  allowed := allowed
  next := next

instance (s : State) (o : Op) (r : o.Reply) : Decidable (sem.allowed s o r) :=
  inferInstanceAs (Decidable (allowed s o r))

/-- The event becomes ready, a timer expires, or the callback of an expired timer runs: it tests and sets `cancelled`,
and calls `cancelEvent`. -/
inductive Act where
  | ready
  | expire (i : Nat)
  | fire (i : Nat)
  | cancelEvent (i : Nat)
deriving DecidableEq, Repr

/-- **The environment** of a call. -/
def environment : System State Act where
  init s := s = .start
  enabled s
    | .ready => s.registered = true
    | .expire i => s.timers[i]? = some .pending
    | .fire i => s.timers[i]? = some .expired
    | .cancelEvent i => s.timers[i]? = some .cancelling
  next s
    | .ready => s.trigger .event
    | .expire i => { s with timers := s.timers.set i .expired }
    | .fire i => s.callback i
    | .cancelEvent i => { s with timers := s.timers.set i .spent }.trigger .timer

instance (s : State) (e : Act) : Decidable (environment.enabled s e) := by
  cases e <;> dsimp only [environment] <;> infer_instance

/-- The two functions that wait with a timer. -/
inductive Job where
  | doIo (hook : Bool) (fuel : Nat) (fd : Int) (fn : Int → Call) (io : IoFun)
  | connect (hook : Bool) (fd : Int) (addr : Ptr) (addrlen : Nat) (timeout : Option Nat)

namespace Job

def body : Job → Hooked Ret
  | .doIo hook fuel fd fn io => Calls.doIo hook fuel fd fn io
  | .connect hook fd addr addrlen timeout => connectWithTimeout hook fd addr addrlen timeout

/-- With what a call goes on after a wait: with the original call, unless its loop is not unrolled any further, or with
the `SO_ERROR` check. -/
def GoesOn : Job → Op → Prop
  | .doIo _ _ fd fn _, o => o = .orig (fn fd) ∨ o = .unrolled
  | .connect _ fd _ _ _, o => o = .soError fd

end Job

/-- **A call amid its environment.** -/
abbrev system (j : Job) : System (Amid Op Op.Reply Ret State) (AmidAct Op Op.Reply Act) := amid sem environment j.body

/-- A callback that finds `cancelled` unset runs only while the event is registered, and the event does not become
ready once it has set it. -/
def Prompt (p : Amid Op Op.Reply Ret State) : AmidAct Op Op.Reply Act → Prop
  | .env (.fire _) => p.shared.cancelled = none → p.shared.registered = true
  | .env .ready => p.shared.cancelled = none
  | _ => True

instance (p : Amid Op Op.Reply Ret State) (a : AmidAct Op Op.Reply Act) : Decidable (Prompt p a) := by
  cases a with
  | op answer => exact isTrue trivial
  | env e => cases e <;> dsimp only [Prompt] <;> infer_instance

/-! ## The stages of a call -/

/-- A call before its wait, with the event registered, resumed, and behind the test of `cancelled`, which it goes on
from or ends with. -/
inductive Stage where
  | idle
  | waiting
  | woken
  | goesOn
  | ended
deriving DecidableEq, Repr

/-- Behind `addEvent` comes the wait, behind the wait `timer->cancel()` and the test, and behind that what `goesOn`
says, or nothing. -/
def stages (goesOn : Op → Prop) : Monitor Op Op.Reply Stage where
  ok
    | .idle, o => o ≠ .yield ∧ o ≠ .cancelled
    | .waiting, o => o = .yield
    | .woken, o => o = .cancelTimer ∨ o = .cancelled
    | .goesOn, o => goesOn o ∧ o ≠ .yield ∧ o ≠ .cancelled
    | .ended, _ => False
  next g o r :=
    match o, r with
    | .addEvent _ _, rt => if rt = none then .waiting else .idle
    | .yield, _ => .woken
    | .cancelTimer, _ => if g = .woken then .woken else .idle
    | .cancelled, some .etimedout => .ended
    | .cancelled, some _ => .idle
    | .cancelled, none => .goesOn
    | _, _ => .idle

/-- A call does not return between the registration and the test, or right behind a test that it goes on from; and it
returns `ETIMEDOUT` where it has ended. -/
def Returns : Stage → Ret → Prop
  | .idle, _ => True
  | .ended, r => r = ⟨-1, .etimedout⟩
  | _, _ => False

section

variable {goesOn : Op → Prop} {g : Stage} {fd : Int} {timeout : Option Nat}

/-- A program that goes through the stages. -/
abbrev Goes (goesOn : Op → Prop) (g : Stage) (p : Hooked Ret) : Prop := Obeys (stages goesOn) Returns g p

theorem goes_arm {event : Hook.Event} {k : Unit → Hooked Ret} (hk : Goes goesOn .idle (k ())) :
    Goes goesOn .idle (arm timeout fd event >>= k) := by
  cases timeout with
  | none => exact hk
  | some ms => exact ⟨⟨nofun, nofun⟩, fun _ => hk⟩

theorem goes_disarm (hg : g = .idle ∨ g = .woken) {k : Unit → Hooked Ret} (hk : Goes goesOn g (k ())) :
    Goes goesOn g (disarm timeout >>= k) := by
  cases timeout with
  | none => exact hk
  | some ms =>
    obtain rfl | rfl := hg
    · exact ⟨⟨nofun, nofun⟩, fun _ => hk⟩
    · exact ⟨Or.inl rfl, fun _ => hk⟩

/-- A registration: refused, or with the wait and the test behind it. -/
theorem goes_wait {event : Hook.Event} {k : Option Errno → Hooked Ret} {f : Option Errno → Hooked Ret}
    (hrefused : ∀ e, Goes goesOn .idle (k (some e)))
    (hadded : k none = (yield >>= fun _ => disarm timeout >>= fun _ => cancelled >>= f))
    (hended : f (some .etimedout) = pure ⟨-1, .etimedout⟩)
    (hother : ∀ e, e ≠ .etimedout → Goes goesOn .idle (f (some e))) (hon : Goes goesOn .goesOn (f none)) :
    Goes goesOn .idle (addEvent fd event >>= k) := by
  refine ⟨⟨nofun, nofun⟩, fun rt => ?_⟩
  cases rt with
  | some e => exact hrefused e
  | none =>
    change Goes goesOn .waiting (k none)
    rw [hadded]
    refine ⟨rfl, fun _ => goes_disarm (Or.inr rfl) ⟨Or.inr rfl, fun x => ?_⟩⟩
    cases x with
    | none => exact hon
    | some e =>
      by_cases he : e = .etimedout
      · subst he
        change Goes goesOn .ended (f (some .etimedout))
        rw [hended]
        rfl
      · have hidle : (stages goesOn).next .woken .cancelled (some e) = .idle := by
          cases e with
          | etimedout => exact absurd rfl he
          | _ => rfl
        change Goes goesOn ((stages goesOn).next .woken .cancelled (some e)) (f (some e))
        rw [hidle]
        exact hother e he

end

theorem goes_retry (fd : Int) (fn : Int → Call) (io : IoFun) (timeout : Option Nat) {g : Stage}
    (hg : g = .idle ∨ g = .goesOn) :
    ∀ fuel, Goes (fun o => o = .orig (fn fd) ∨ o = .unrolled) g (retry fd fn io timeout fuel)
  | 0 => by
    obtain rfl | rfl := hg
    · exact ⟨⟨nofun, nofun⟩, fun _ => trivial⟩
    · exact ⟨⟨Or.inr rfl, nofun, nofun⟩, fun _ => trivial⟩
  | fuel + 1 => by
    have hok : (stages fun o => o = .orig (fn fd) ∨ o = .unrolled).ok g (.orig (fn fd)) := by
      obtain rfl | rfl := hg
      · exact ⟨nofun, nofun⟩
      · exact ⟨Or.inl rfl, nofun, nofun⟩
    simp only [retry, Prog.call_bind, obeys_op]
    refine ⟨hok, fun n => ?_⟩
    split
    · exact goes_retry fd fn io timeout (Or.inl rfl) fuel
    split
    · refine goes_arm (goes_wait
        (f := fun x => if x = some .etimedout then pure ⟨-1, .etimedout⟩ else retry fd fn io timeout fuel)
        (fun e => goes_disarm (Or.inl rfl) trivial) rfl rfl ?_ ?_)
      · intro e he
        rw [if_neg (by simpa using he)]
        exact goes_retry fd fn io timeout (Or.inl rfl) fuel
      · exact goes_retry fd fn io timeout (Or.inr rfl) fuel
    · exact trivial

theorem goes_connected (fd : Int) {g : Stage} (hg : g = .idle ∨ g = .goesOn) :
    Goes (fun o => o = .soError fd) g (connected fd) := by
  have hok : (stages fun o => o = .soError fd).ok g (.soError fd) := by
    obtain rfl | rfl := hg
    · exact ⟨nofun, nofun⟩
    · exact ⟨rfl, nofun, nofun⟩
  refine ⟨hok, fun a => ?_⟩
  dsimp only [Prog.bind]
  split
  · trivial
  · split <;> trivial

/-- Looking at the context is no stage. -/
theorem stages_looks {goesOn : Op → Prop} {g : Stage} {o : Op} (hg : g = .idle) (ho : LookOp o) :
    (stages goesOn).ok g o ∧ ∀ r, (stages goesOn).next g o r = .idle := by
  subst hg
  cases o <;> first | exact ⟨⟨nofun, nofun⟩, fun _ => rfl⟩ | exact ho.elim

/-- **The two functions** go through the stages. -/
theorem goes_body (j : Job) : Goes j.GoesOn .idle j.body := by
  cases j with
  | doIo hook fuel fd fn io =>
    refine obeys_looks (K := (· = .idle)) (fun _ _ => stages_looks) ?_ ?_ ?_ rfl
    · rintro _ rfl
      trivial
    · rintro _ rfl
      exact ⟨⟨nofun, nofun⟩, fun _ => trivial⟩
    · rintro _ v rfl
      exact goes_retry fd fn io v (Or.inl rfl) fuel
  | connect hook fd addr addrlen timeout =>
    refine obeys_connects (K := (· = .idle)) (fun _ _ => stages_looks) ?_ ?_ ?_ rfl
    · rintro _ rfl
      trivial
    · rintro _ rfl
      exact ⟨⟨nofun, nofun⟩, fun _ => trivial⟩
    · rintro _ rfl n
      refine goes_arm (goes_wait (fun e => goes_disarm (Or.inl rfl) ?_) rfl rfl (fun e _ => trivial) ?_)
      · exact goes_connected fd (Or.inl rfl)
      · exact goes_connected fd (Or.inr rfl)

/-! ## What is known in every stage -/

/-- What `cancelled` says of what has resumed the fiber. -/
def Cause.flag : Cause → Option Errno
  | .event => none
  | .timer => some .etimedout

/-- Nothing is registered, and nothing has queued the fiber. -/
def Calm (s : State) : Prop := s.registered = false ∧ s.queued = none

/-- Outside its wait a call is calm and `cancelled` unset. In its wait the event is registered, or else `cancelled` says
what has queued the fiber, and behind it, what has resumed the fiber. -/
def AtStage : Stage → State → Prop
  | .idle, s => Calm s ∧ s.cancelled = none ∧ s.tested = none
  | .waiting, s =>
    (s.registered = true ∧ s.queued = none ∨
      s.registered = false ∧ ∃ c, s.queued = some c ∧ s.cancelled = c.flag) ∧ s.tested = none
  | .woken, s => Calm s ∧ (∃ c, s.woken = some c ∧ s.cancelled = c.flag) ∧ s.tested = none
  | .goesOn, s => Calm s ∧ s.cancelled = none ∧ s.tested = some .event
  | .ended, s => Calm s ∧ s.tested = some .timer

/-- **The invariant.** -/
structure Known (g : Stage) (s : State) : Prop where
  stage : AtStage g s
  set : .cancelling ∈ s.timers → s.cancelled = some .etimedout

section

variable {goesOn : Op → Prop} {g : Stage} {s : State}

@[simp] theorem cancelTimer_registered : s.cancelTimer.registered = s.registered := by
  unfold State.cancelTimer
  split <;> rfl

@[simp] theorem cancelTimer_queued : s.cancelTimer.queued = s.queued := by
  unfold State.cancelTimer
  split <;> rfl

@[simp] theorem cancelTimer_woken : s.cancelTimer.woken = s.woken := by
  unfold State.cancelTimer
  split <;> rfl

@[simp] theorem cancelTimer_cancelled : s.cancelTimer.cancelled = s.cancelled := by
  unfold State.cancelTimer
  split <;> rfl

theorem mem_cancelTimer (h : .cancelling ∈ s.cancelTimer.timers) : .cancelling ∈ s.timers := by
  unfold State.cancelTimer at h
  split at h
  · rename_i ts hts
    rw [hts]
    simpa using h
  · exact h

/-- No operation has a callback set `cancelled`, or unsets it. -/
theorem set_op {o : Op} {r : o.Reply} (h : .cancelling ∈ s.timers → s.cancelled = some .etimedout) :
    .cancelling ∈ (next s o r).timers → (next s o r).cancelled = some .etimedout := by
  cases o with
  | addConditionTimer ms fd event => simpa [next] using h
  | cancelTimer =>
    intro hmem
    exact (cancelTimer_cancelled (s := s)).trans (h (mem_cancelTimer hmem))
  | _ => exact h

/-- An operation outside the wait. -/
theorem stage_calm {o : Op} {r : o.Reply} (hg : g ≠ .woken) (ho : o ≠ .yield ∧ o ≠ .cancelled) (hs : Calm s)
    (hc : s.cancelled = none) : AtStage ((stages goesOn).next g o r) (next s o r) := by
  obtain ⟨hreg, hq⟩ := hs
  cases o with
  | yield => exact absurd rfl ho.1
  | cancelled => exact absurd rfl ho.2
  | addEvent fd event =>
    cases (r : Option Errno) with
    | none => exact ⟨Or.inl ⟨by simp [next], hq⟩, rfl⟩
    | some e => exact ⟨⟨by simp [next, hreg], hq⟩, hc, rfl⟩
  | cancelTimer =>
    have hidle : (stages goesOn).next g .cancelTimer r = .idle := if_neg hg
    rw [hidle]
    exact ⟨⟨by simp [next, hreg], by simp [next, hq]⟩, by simp [next, hc], rfl⟩
  | _ => exact ⟨⟨hreg, hq⟩, hc, rfl⟩

theorem stage_op {o : Op} {r : o.Reply} (ho : (stages goesOn).ok g o) (h : AtStage g s) (ha : allowed s o r) :
    AtStage ((stages goesOn).next g o r) (next s o r) := by
  cases g with
  | idle => exact stage_calm nofun ho h.1 h.2.1
  | goesOn => exact stage_calm nofun ho.2 h.1 h.2.1
  | ended => exact ho.elim
  | waiting =>
    obtain rfl : o = .yield := ho
    obtain ⟨⟨-, hq⟩ | ⟨hreg, c, hq, hc⟩, -⟩ := h
    · have ha : s.queued.isSome = true := ha
      rw [hq] at ha
      cases ha
    · exact ⟨⟨hreg, rfl⟩, ⟨c, hq, hc⟩, rfl⟩
  | woken =>
    obtain ⟨⟨hreg, hq⟩, ⟨c, hwoken, hc⟩, -⟩ := h
    obtain rfl | rfl := ho
    · exact ⟨⟨by simp [next, hreg], by simp [next, hq]⟩, ⟨c, by simp [next, hwoken], by simp [next, hc]⟩, rfl⟩
    · -- the test of `cancelled`
      obtain rfl : r = s.cancelled := ha
      cases c with
      | event =>
        have hc : s.cancelled = none := hc
        simp only [hc]
        exact ⟨⟨hreg, hq⟩, hc, hwoken⟩
      | timer =>
        have hc : s.cancelled = some .etimedout := hc
        simp only [hc]
        exact ⟨⟨hreg, hq⟩, hwoken⟩

/-- **Every operation** keeps what is known. -/
theorem known_op {o : Op} {r : o.Reply} (ho : (stages goesOn).ok g o) (h : Known g s) (ha : allowed s o r) :
    Known ((stages goesOn).next g o r) (next s o r) :=
  ⟨stage_op ho h.stage ha, set_op h.set⟩

/-- The timers are not what a stage is about. -/
theorem stage_timers {ts : List Timer} : AtStage g { s with timers := ts } ↔ AtStage g s := by
  cases g <;> exact Iff.rfl

/-- The event is registered in a wait, and nowhere else. -/
theorem AtStage.waiting (h : AtStage g s) (hreg : s.registered = true) :
    g = .waiting ∧ s.queued = none ∧ s.tested = none := by
  cases g with
  | waiting =>
    obtain ⟨⟨-, hq⟩ | ⟨hfalse, -⟩, ht⟩ := h
    · exact ⟨rfl, hq, ht⟩
    · rw [hfalse] at hreg
      cases hreg
  | _ =>
    rw [h.1.1] at hreg
    cases hreg

/-- What triggers the event, or cancels it, queues the fiber. -/
theorem stage_trigger {c : Cause} (h : AtStage g s) (hc : s.registered = true → s.cancelled = c.flag) :
    AtStage g (s.trigger c) := by
  unfold State.trigger
  split
  · rename_i hreg
    obtain ⟨rfl, -, ht⟩ := h.waiting hreg
    exact ⟨Or.inr ⟨rfl, c, rfl, hc hreg⟩, ht⟩
  · exact h

@[simp] theorem trigger_timers {c : Cause} : (s.trigger c).timers = s.timers := by
  unfold State.trigger
  split <;> rfl

@[simp] theorem trigger_cancelled {c : Cause} : (s.trigger c).cancelled = s.cancelled := by
  unfold State.trigger
  split <;> rfl

/-- **Every act of the environment** keeps what is known, if nothing comes in between. -/
theorem known_env {p : Amid Op Op.Reply Ret State} {e : Act} (h : Known g p.shared)
    (he : environment.enabled p.shared e) (hp : Prompt p (.env e)) : Known g (environment.next p.shared e) := by
  cases e with
  | ready =>
    refine ⟨stage_trigger h.stage fun _ => hp, fun hmem => ?_⟩
    exact trigger_cancelled.trans (h.set (trigger_timers ▸ hmem))
  | expire i =>
    refine ⟨stage_timers.mpr h.stage, fun hmem => h.set ?_⟩
    exact (List.mem_or_eq_of_mem_set hmem).resolve_right nofun
  | fire i =>
    change Known g (p.shared.callback i)
    unfold State.callback
    split
    · rename_i hc
      obtain ⟨rfl, hq, ht⟩ := h.stage.waiting (hp hc)
      exact ⟨⟨Or.inl ⟨hp hc, hq⟩, ht⟩, fun _ => rfl⟩
    · refine ⟨stage_timers.mpr h.stage, fun hmem => h.set ?_⟩
      exact (List.mem_or_eq_of_mem_set hmem).resolve_right nofun
  | cancelEvent i =>
    have hset : p.shared.cancelled = some .etimedout := h.set (List.mem_of_getElem? he)
    refine ⟨stage_trigger (stage_timers.mpr h.stage) fun _ => hset, fun _ => ?_⟩
    exact trigger_cancelled.trans hset

end

/-! ## The causes of `ETIMEDOUT` -/

/-- A call that has just tested `cancelled`: it is over with `ETIMEDOUT` if the callback of a timer had resumed it, and
goes on if the event had. -/
def Reports (j : Job) (p : Amid Op Op.Reply Ret State) : Prop :=
  ∀ c, p.shared.tested = some c →
    match c with
    | .timer => p.rest = .ret ⟨-1, .etimedout⟩
    | .event => ∃ o k, p.rest = .op o k ∧ j.GoesOn o

/-- A socket that has nothing to read, with a timeout of a millisecond. -/
def answers (x : Option Errno) : (o : Op) → o.Reply
  | .orig _ => ⟨-1, .eagain⟩
  | .soError _ => (⟨0, .eagain⟩, none)
  | .get _ _ => some 0
  | .getTimeout _ _ => some 1
  | .isSocket _ | .getSysNonblock _ | .getIom => true
  | .isClosed _ | .getUserNonblock _ => false
  | .addEvent _ _ => none
  | .cancelled => x
  | .yield => .eagain
  | .setUserNonblock _ _ | .setTimeout _ _ _ | .del _ | .cancelAll _ | .addTimer _ => ()
  | .addConditionTimer _ _ _ | .cancelTimer | .unrolled => ()

/-- The `read` of a fiber. -/
def Job.read : Job := .doIo true 1 5 (.read · 0 10) .reads

/-- It finds nothing and waits; what happens in its wait; and it comes to its test of `cancelled`, which is
`ETIMEDOUT`. -/
def readRun (es : List Act) : List (AmidAct Op Op.Reply Act) :=
  List.replicate 8 (.op (answers none)) ++ es.map .env ++ List.replicate 3 (.op (answers (some .etimedout)))

theorem init_read : (system .read).init ⟨.start, Job.read.body⟩ := ⟨rfl, rfl⟩

end Sylar.Races
