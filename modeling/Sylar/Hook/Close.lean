import Sylar.Hook.Machine

/-!
# What a hooked `close` ends

`do_io` looks the context up once, before `retry:`, and a fiber that `cancelAll` wakes goes back to `retry:` unless its
timer has ended the wait. So whether a pending call is over when `close` has called `cancelAll` is decided by where it
is at that moment.

- `Settled`: the call has its result, or its timer has ended the wait;
- `settled_next`: a settled call stays settled, touches the number no more and is registered no more;
- `leads_of_unsettled`: from every other position there is a run in which it touches the number again;
- `close_ends_io`: together; `close_reused`: the run in which the number is a new socket by then.
-/

namespace Sylar.Hook

open Trans

variable {I : Type} [DecidableEq I] {fn : I → IoFun} {s : State I} {i : I}

/-! ## Frames -/

/-- The fiber whose call a step belongs to. -/
def Act.actor : Act I → Option I
  | .enter i _ | .lookup i | .closed i _ | .kind i | .pass i _ | .timeout i | .call i _ | .arm i | .addEvent i _
  | .refused i | .yield i | .resume i | .cancelTimer i | .test i | .expire i | .fire i => some i
  | .ready _ | .closeEnter _ | .closeGet _ | .cancelAll | .del | .closeF | .reopen | .manage _ => none

/-- A step of another fiber leaves a call alone. -/
theorem io_frame {a : Act I} (ha : a.actor ≠ some i) : (next fn s a).io i = s.io i := by
  have hset : ∀ (j : I) (x : IoCall), some j ≠ some i → (s.setIo j x).io i = s.io i := by
    intro j x hj
    exact Function.update_of_ne (fun h => hj (congrArg some h.symm)) _ _
  cases a with
  | enter j | closed j | pass j | timeout j | call j | arm j | yield j | resume j | cancelTimer j | test j | expire j =>
    exact hset j _ ha
  | lookup j | addEvent j =>
    simp only [next]
    split <;> exact hset j _ ha
  | kind j =>
    simp only [next]
    split
    · rfl
    · exact hset j _ ha
  | refused j =>
    simp only [next]
    split
    · exact hset j _ ha
    · rfl
  | fire j =>
    have hij : i ≠ j := fun h => ha (congrArg some h.symm)
    simp only [next]
    split_ifs <;> simp [hij]
  | _ => rfl

/-- Only the fiber itself registers. -/
theorem registered_frame {a : Act I} (ha : a.actor ≠ some i) (h : s.registered i = false) :
    (next fn s a).registered i = false := by
  cases a with
  | addEvent j rt =>
    have hij : i ≠ j := fun h => ha (congrArg some h.symm)
    simp only [next]
    split
    · simpa [hij] using h
    · exact h
  | ready e | cancelAll => simp [next, h]
  | fire j =>
    simp only [next]
    split_ifs <;> simp [h]
  | lookup j | kind j | refused j =>
    simp only [next]
    split <;> exact h
  | _ => exact h

/-! ## Settled calls -/

/-- An original call on the number by the fiber `i`, or an `addEvent`. -/
def Act.Touches (i : I) : Act I → Prop
  | .pass j _ | .call j _ | .addEvent j _ => j = i
  | _ => False

omit [DecidableEq I] in
theorem Act.Touches.actor {a : Act I} (h : a.Touches i) : a.actor = some i := by
  cases a with
  | pass j r | call j r | addEvent j rt => exact congrArg some h
  | _ => exact h.elim

/-- The call has its result or a refused `addEvent` behind it, or it has registered and its timer has ended the wait. -/
def Settled (x : IoCall) : Prop :=
  match x.pc with
  | .refused _ | .done _ => True
  | .park | .waiting | .resumed | .test => x.cancelled = some .etimedout
  | _ => False

instance (x : IoCall) : Decidable (Settled x) := by
  unfold Settled
  cases x.pc <;> dsimp only <;> infer_instance

omit [DecidableEq I] in
/-- The timer's callback leaves a settled call alone, unless its `addEvent` was refused. -/
theorem Settled.skip (h : Settled (s.io i)) :
    (s.running i = false ∨ (s.io i).cancelled ≠ none) ∨ ∃ e, (s.io i).pc = .refused e := by
  unfold Settled at h
  cases hpc : (s.io i).pc with
  | refused e => exact Or.inr ⟨e, rfl⟩
  | done r => exact Or.inl (Or.inl (by simp [State.running, hpc]))
  | park | waiting | resumed | test =>
    rw [hpc] at h
    refine Or.inl (Or.inr ?_)
    rw [show (s.io i).cancelled = some .etimedout from h]
    simp
  | _ =>
    rw [hpc] at h
    exact h.elim

/-- The call is over, as far as the number is concerned. -/
def Over (s : State I) (i : I) : Prop := Settled (s.io i) ∧ s.registered i = false

/-- The steps of a settled call lead to its end. -/
theorem settled_own (h : Over s i) {a : Act I} (hg : guard s a) (ha : a.actor = some i) :
    ¬ a.Touches i ∧ Over (next fn s a) i := by
  obtain ⟨hs, hr⟩ := h
  unfold Settled at hs
  cases a with
  | enter j | lookup j | closed j | kind j | pass j | timeout j | call j | arm j | addEvent j =>
    cases ha
    simp only [guard] at hg
    rw [hg] at hs
    exact hs.elim
  | refused j =>
    cases ha
    obtain ⟨e, he⟩ := hg
    refine ⟨id, ?_, ?_⟩
    · simp [next, he, Settled]
    · simpa [next, he] using hr
  | yield j =>
    cases ha
    simp only [guard] at hg
    rw [hg] at hs
    exact ⟨id, by simpa [next, Settled] using hs, hr⟩
  | resume j =>
    cases ha
    rw [hg.1] at hs
    exact ⟨id, by simpa [next, Settled] using hs, hr⟩
  | cancelTimer j =>
    cases ha
    simp only [guard] at hg
    rw [hg] at hs
    exact ⟨id, by simpa [next, Settled] using hs, hr⟩
  | test j =>
    cases ha
    simp only [guard] at hg
    rw [hg] at hs
    exact ⟨id, by simp [next, Settled, show (s.io i).cancelled = _ from hs], hr⟩
  | expire j =>
    cases ha
    refine ⟨id, ?_, hr⟩
    simp only [next, Settled, State.setIo, Function.update_self]
    exact hs
  | fire j =>
    cases ha
    refine ⟨id, ?_⟩
    simp only [next]
    split_ifs with hskip
    · refine ⟨?_, hr⟩
      simp only [Settled, State.setIo, Function.update_self]
      exact hs
    · obtain hskip' | ⟨e, he⟩ := Settled.skip hs
      · exact absurd hskip' hskip
      refine ⟨?_, ?_⟩
      · simp [Settled, he]
      · simp [hr]
  | _ => cases ha

/-- **A settled call stays settled**, and touches the number no more. -/
theorem settled_next (h : Over s i) {a : Act I} (hg : guard s a) : ¬ a.Touches i ∧ Over (next fn s a) i := by
  by_cases ha : a.actor = some i
  · exact settled_own h hg ha
  · refine ⟨fun ht => ha ht.actor, ?_, registered_frame ha h.2⟩
    rw [io_frame ha]
    exact h.1

/-! ## Calls that are not settled -/

/-- A run from here in which the fiber `i` touches the number. -/
def Leads (fn : I → IoFun) (s : State I) (i : I) : Prop :=
  ∃ as t, (system fn).Steps Always s as t ∧ ∃ a ∈ as, a.Touches i

theorem leads_touch {a : Act I} (hg : guard s a) (ha : a.Touches i) : Leads fn s i :=
  ⟨[a], _, .cons hg trivial (.nil _), a, List.mem_singleton_self a, ha⟩

theorem leads_step {a : Act I} (hg : guard s a) (h : Leads fn (next fn s a) i) : Leads fn s i := by
  obtain ⟨as, t, hs, b, hb, ht⟩ := h
  exact ⟨a :: as, t, .cons hg trivial hs, b, List.mem_cons_of_mem _ hb, ht⟩

theorem leads_call (h : (s.io i).pc = .call) : Leads fn s i :=
  leads_touch (a := .call i ⟨0, .other 0⟩) h rfl

theorem leads_pass (h : (s.io i).pc = .pass) : Leads fn s i :=
  leads_touch (a := .pass i ⟨0, .other 0⟩) h rfl

theorem leads_register (h : (s.io i).pc = .register) : Leads fn s i :=
  leads_touch (a := .addEvent i none) h rfl

theorem leads_arm (h : (s.io i).pc = .arm) : Leads fn s i :=
  leads_step (a := .arm i) h (leads_register (by simp [next]))

theorem leads_timeout (h : (s.io i).pc = .timeout) : Leads fn s i :=
  leads_step (a := .timeout i) h (leads_call (by simp [next]))

theorem leads_kind (h : (s.io i).pc = .kind) (hc : (s.io i).ctx ≠ none) : Leads fn s i := by
  obtain ⟨ctx, hctx⟩ := Option.ne_none_iff_exists'.1 hc
  refine leads_step (a := .kind i) h ?_
  by_cases hpass : (!ctx.isSocket || ctx.userNonblock) = true
  · exact leads_pass (by simp only [next, hctx, if_pos hpass]; simp)
  · exact leads_timeout (by simp only [next, hctx, if_neg hpass]; simp)

theorem leads_closed (h : (s.io i).pc = .closed) (hc : (s.io i).ctx ≠ none) : Leads fn s i :=
  leads_step (a := .closed i false) h (leads_kind (by simp [next]) (by simpa [next] using hc))

theorem leads_lookup (h : (s.io i).pc = .lookup) : Leads fn s i := by
  refine leads_step (a := .lookup i) h ?_
  cases hc : s.ctx with
  | none => exact leads_pass (by simp [next, hc])
  | some ctx => exact leads_closed (by simp [next, hc]) (by simp [next, hc])

theorem leads_entry (h : (s.io i).pc = .entry) : Leads fn s i :=
  leads_step (a := .enter i true) h (leads_lookup (by simp [next]))

/-- Back to `retry:`, as the timer has not ended the wait. -/
theorem leads_test (h : (s.io i).pc = .test) (hc : (s.io i).cancelled ≠ some .etimedout) : Leads fn s i :=
  leads_step (a := .test i) h (leads_call (by simp [next, hc]))

theorem leads_resumed (h : (s.io i).pc = .resumed) (hc : (s.io i).cancelled ≠ some .etimedout) : Leads fn s i :=
  leads_step (a := .cancelTimer i) h (leads_test (by simp [next]) (by simpa [next] using hc))

theorem leads_waiting (h : (s.io i).pc = .waiting) (hq : s.queued i = true)
    (hc : (s.io i).cancelled ≠ some .etimedout) : Leads fn s i :=
  leads_step (a := .resume i) ⟨h, hq⟩ (leads_resumed (by simp [next]) (by simpa [next] using hc))

theorem leads_park (h : (s.io i).pc = .park) (hq : s.queued i = true)
    (hc : (s.io i).cancelled ≠ some .etimedout) : Leads fn s i :=
  leads_step (a := .yield i) h (leads_waiting (by simp [next]) hq (by simpa [next] using hc))

/-- **A call that is not settled can touch the number**, if somebody has queued it where it waits. -/
theorem leads_of_unsettled (hq : (s.io i).pc = .park ∨ (s.io i).pc = .waiting → s.queued i = true)
    (hc : (s.io i).pc = .closed ∨ (s.io i).pc = .kind → (s.io i).ctx ≠ none) (h : ¬ Settled (s.io i)) :
    Leads fn s i := by
  unfold Settled at h
  cases hpc : (s.io i).pc with
  | entry => exact leads_entry hpc
  | lookup => exact leads_lookup hpc
  | closed => exact leads_closed hpc (hc (Or.inl hpc))
  | kind => exact leads_kind hpc (hc (Or.inr hpc))
  | pass => exact leads_pass hpc
  | timeout => exact leads_timeout hpc
  | call => exact leads_call hpc
  | arm => exact leads_arm hpc
  | register => exact leads_register hpc
  | refused e | done r =>
    rw [hpc] at h
    exact absurd trivial h
  | park =>
    rw [hpc] at h
    exact leads_park hpc (hq (Or.inl hpc)) h
  | waiting =>
    rw [hpc] at h
    exact leads_waiting hpc (hq (Or.inr hpc)) h
  | resumed =>
    rw [hpc] at h
    exact leads_resumed hpc h
  | test =>
    rw [hpc] at h
    exact leads_test hpc h

/-! ## Runs -/

/-- A fiber that waits is registered or queued, and where the context is read there is one. -/
structure Kept (s : State I) (i : I) : Prop where
  waits : (s.io i).pc = .park ∨ (s.io i).pc = .waiting → s.registered i = true ∨ s.queued i = true
  ctx : (s.io i).pc = .closed ∨ (s.io i).pc = .kind → (s.io i).ctx ≠ none

/-- What is triggered is queued. -/
theorem queued_trigger {r q : Bool} (h : r = true ∨ q = true) (p : Bool) :
    (r && !p) = true ∨ (q || r && p) = true := by
  revert h
  cases r <;> cases q <;> cases p <;> decide

/-- Another fiber's step leaves a fiber registered or queued. -/
theorem queued_frame {a : Act I} (ha : a.actor ≠ some i) (h : s.registered i = true ∨ s.queued i = true) :
    (next fn s a).registered i = true ∨ (next fn s a).queued i = true := by
  cases a with
  | addEvent j rt =>
    have hij : i ≠ j := fun h => ha (congrArg some h.symm)
    simp only [next]
    split
    · simpa [hij] using h
    · exact h
  | resume j =>
    have hij : i ≠ j := fun h => ha (congrArg some h.symm)
    simpa [next, hij] using h
  | ready e | cancelAll => exact queued_trigger h _
  | fire j =>
    simp only [next]
    split_ifs
    · exact h
    · exact queued_trigger h _
  | lookup j | kind j | refused j =>
    simp only [next]
    split <;> exact h
  | _ => exact h

/-- A fiber's own steps. -/
theorem kept_own (h : Kept s i) {a : Act I} (hg : guard s a) (ha : a.actor = some i) : Kept (next fn s a) i := by
  cases a with
  | enter j hook =>
    cases ha
    refine ⟨?_, ?_⟩ <;> cases hook <;> simp [next]
  | lookup j =>
    cases ha
    cases hc : s.ctx <;> refine ⟨?_, ?_⟩ <;> simp [next, hc]
  | closed j isClosed =>
    cases ha
    have hctx := h.ctx (Or.inl hg)
    cases isClosed <;> refine ⟨?_, ?_⟩ <;> simp [next, hctx]
  | kind j =>
    cases ha
    cases hc : (s.io i).ctx with
    | none => exact absurd hc (h.ctx (Or.inr hg))
    | some ctx => refine ⟨?_, ?_⟩ <;> simp only [next, hc] <;> split_ifs <;> simp
  | call j r =>
    cases ha
    refine ⟨?_, ?_⟩ <;> simp only [next] <;> split_ifs <;> simp
  | test j =>
    cases ha
    refine ⟨?_, ?_⟩ <;> simp only [next] <;> split_ifs <;> simp
  | pass j r | timeout j | arm j | resume j | cancelTimer j =>
    cases ha
    refine ⟨?_, ?_⟩ <;> simp [next]
  | addEvent j rt =>
    cases ha
    cases rt <;> refine ⟨?_, ?_⟩ <;> simp [next]
  | refused j =>
    cases ha
    obtain ⟨e, he⟩ := hg
    refine ⟨?_, ?_⟩ <;> simp [next, he]
  | yield j =>
    cases ha
    have hw := h.waits (Or.inl hg)
    refine ⟨fun _ => hw, ?_⟩
    simp [next]
  | expire j =>
    cases ha
    refine ⟨?_, ?_⟩
    · simpa [next] using h.waits
    · simpa [next] using h.ctx
  | fire j =>
    cases ha
    simp only [next]
    split_ifs
    · refine ⟨?_, ?_⟩
      · simpa using h.waits
      · simpa using h.ctx
    · refine ⟨fun hpc => queued_trigger (h.waits ?_) _, ?_⟩
      · simpa using hpc
      · simpa using h.ctx
  | _ => cases ha

theorem kept_next (h : Kept s i) {a : Act I} (hg : guard s a) : Kept (next fn s a) i := by
  by_cases ha : a.actor = some i
  · exact kept_own h hg ha
  · refine ⟨?_, ?_⟩
    · rw [io_frame ha]
      exact fun hpc => queued_frame ha (h.waits hpc)
    · rw [io_frame ha]
      exact h.ctx

theorem kept_reach (h : (system fn).Reach Always s) (i : I) : Kept s i := by
  induction h using System.Reach.induct with
  | start s h₀ =>
    obtain ⟨ctx, -, -, rfl⟩ := h₀
    exact ⟨by simp [initial], by simp [initial]⟩
  | step s a _ hg _ ih => exact kept_next ih hg

/-- Every run from a settled call is silent. -/
theorem over_steps {as : List (Act I)} {t : State I} (h : (system fn).Steps Always s as t) (ho : Over s i) :
    (∀ a ∈ as, ¬ a.Touches i) ∧ Over t i := by
  induction h with
  | nil s => exact ⟨by simp, ho⟩
  | cons hg _ _ ih =>
    obtain ⟨hsilent, ho⟩ := settled_next ho hg
    obtain ⟨hrest, ht⟩ := ih ho
    refine ⟨?_, ht⟩
    intro a ha
    rcases List.mem_cons.1 ha with rfl | ha
    · exact hsilent
    · exact hrest a ha

/-- From the call of `cancelAll` on, the fiber `i` makes no original call on the number and no `addEvent`, and it is not
registered. -/
def EndsIo (fn : I → IoFun) (s : State I) (i : I) : Prop :=
  ∀ as t, (system fn).Steps Always s (.cancelAll :: as) t → (∀ a ∈ as, ¬ a.Touches i) ∧ t.registered i = false

/-- **What `close` ends.** In every reachable state in which `close` is about to call `cancelAll`, it ends a call of
`do_io`, whatever happens from then on, if and only if the call is settled at that moment. -/
theorem close_ends_io (h : (system fn).Reach Always s) (hc : (system fn).enabled s .cancelAll) (i : I) :
    EndsIo fn s i ↔ Settled (s.io i) := by
  have hk := kept_reach h i
  constructor
  · intro hends
    by_contra hs
    have hleads : Leads fn (next fn s .cancelAll) i := by
      apply leads_of_unsettled
      · intro hpc
        rcases hk.waits hpc with hr | hq
        · simp [next, hr]
        · simp [next, hq]
      · exact hk.ctx
      · exact hs
    obtain ⟨as, t, hsteps, a, ha, ht⟩ := hleads
    exact (hends as t (.cons hc trivial hsteps)).1 a ha ht
  · intro hs as t hsteps
    cases hsteps with
    | cons _ _ hsteps =>
      have hover : Over (next fn s .cancelAll) i := ⟨hs, by simp [next]⟩
      obtain ⟨hsilent, ho⟩ := over_steps hsteps hover
      exact ⟨hsilent, ho.2⟩

/-- A fiber reads from the socket and waits, and another one enters `close`; `as` is what happens in between. -/
def waitRun (as : List (Act Unit)) : List (Act Unit) :=
  [.enter () true, .lookup (), .closed () false, .kind (), .timeout (), .call () ⟨-1, .eagain⟩, .arm (),
    .addEvent () none,
    .yield ()] ++ as ++ [.closeEnter true, .closeGet true]

theorem init_managed (ctx : FdCtx) (h : ctx.isSocket = true ∧ ctx.userNonblock = false) :
    (system fn).init (initial I ctx) := ⟨ctx, h.1, h.2, rfl⟩

/-- The timer of the reader fires before `close` is called. -/
theorem close_ends_io_timeout : ∃ s : State Unit, (s.io ()).pc = .waiting ∧ s.close = .cancelAll ∧
    EndsIo (fun _ => .reads) s () := by
  have h : (System.exec (system fun _ => .reads) Always (initial Unit ⟨true, false, some 5, none⟩)
      (waitRun [.expire (), .fire ()])).isSome = true := by
    decide
  have hreach := System.reach_exec (init_managed _ ⟨rfl, rfl⟩) h
  exact ⟨_, rfl, rfl, (close_ends_io hreach rfl ()).2 rfl⟩

/-! ## A number used again -/

/-- `close` runs to its end and the kernel hands out the number again before the reader is back at `retry:`. -/
def reuseRun : List (Act Unit) := [.cancelAll, .del, .closeF, .reopen, .resume (), .cancelTimer (), .test ()]

/-- The reader waits again, with the number of the new socket. -/
def againRun : List (Act Unit) := [.call () ⟨-1, .eagain⟩, .arm (), .addEvent () none]

/-- **The number is used again**: the reader's next original call is on the new socket, and it is registered again. -/
theorem close_reused : ∃ s t u : State Unit, (system fun _ => .reads).Reach Always s ∧
    (system fun _ => .reads).enabled s .cancelAll ∧ ¬ EndsIo (fun _ => .reads) s () ∧
    (system fun _ => .reads).Steps Always s reuseRun t ∧ t.close = .done ∧ t.socket = some 1 ∧
    (system fun _ => .reads).Steps Always t againRun u ∧ u.registered () = true := by
  have hs : (System.exec (system fun _ => .reads) Always (initial Unit ⟨true, false, none, none⟩)
      (waitRun [])).isSome = true := by
    decide
  have ht : (System.exec (system fun _ => .reads) Always (Option.get _ hs) reuseRun).isSome = true := by
    decide +revert
  have hu : (System.exec (system fun _ => .reads) Always (Option.get _ ht) againRun).isSome = true := by
    decide +revert
  have hagain := (System.steps_exec ht).append (System.steps_exec hu)
  refine ⟨_, _, _, System.reach_exec (init_managed _ ⟨rfl, rfl⟩) hs, rfl, ?_, System.steps_exec ht, rfl, rfl,
    System.steps_exec hu, rfl⟩
  intro hends
  cases (hends _ _ hagain).2

end Sylar.Hook
