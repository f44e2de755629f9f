import Sylar.Fiber.References
import Sylar.Scheduler.Tasks

/-!
# The lifetime of fibers

The steps that copy, hand on or drop a `shared_ptr`. Each is one rule of `RefCount`, and only the drops have to show
that the fiber is not needed any more: `task.reset()` and user code drop a task fiber whose last owner is then gone,
`run()` drops its idle fiber behind the end of `idle()`, `MainFunc` drops the fiber it runs on while the resumer holds
it.

- `life_next`: every step keeps the account;
- `destroyed_done`: a fiber is destroyed only when it was never started or is `TERM`, and no thread is on its stack.
-/

set_option linter.unusedSectionVars false

namespace Sylar.Fibers

open Trans Ownership

variable {W E C : Type} [DecidableEq W] [DecidableEq E] {cfg : Sylar.Config W E} {s s' : State W E C}

/-! ## What changes hands -/

/-- The references that the worker `w` can change in one step. -/
def share (s : State W E C) (w : W) (f : FiberId W) : Nat :=
  queued s.base f + held (s.locals w) f + s.timers.count f + s.userRefs f + ref (s.fib f).self f

/-- What is not constructed after a step of the scheduler was not before it. -/
theorem unmade_next (cfg : Sylar.Config W E) (a : Sched.Act W E (FiberId W) C) (hg : Sched.guard cfg s.base a)
    {f : FiberId W} (hf : Unmade s' f) (hb : s'.base = Sched.next cfg s.base a) (hn : s'.nextId = s.nextId) :
    Unmade s f := by
  cases f with
  | task n => exact Nat.le_trans (Nat.le_of_eq hn.symm) hf
  | idle w =>
    have hout : (s'.base.worker w).Outside := hf
    rw [hb] at hout
    exact Sched.outside_next hg hout
  | main w | sched => exact hf

section Account

variable [Fintype W]

/-- One worker moves, and the owners change as its share does. -/
theorem owners_move (cfg : Sylar.Config W E) {w : W} (h : ∀ v, v ≠ w → s'.locals v = s.locals v)
    (hd : s'.destroyed = s.destroyed) (f : FiberId W) :
    owners cfg s' f + share s w f = owners cfg s f + share s' w f := by
  have hsum := sum_held h f
  have hsched : mSchedulerFiber cfg s' = mSchedulerFiber cfg s := by
    unfold mSchedulerFiber
    rw [hd]
  unfold owners share
  rw [hsched]
  omega

/-- One worker moves, and only its locals change. -/
theorem owners_locals (cfg : Sylar.Config W E) {w : W} (h : ∀ v, v ≠ w → s'.locals v = s.locals v)
    (hd : s'.destroyed = s.destroyed) (hq : s'.base.mTasks = s.base.mTasks) (ht : s'.timers = s.timers)
    (hu : s'.userRefs = s.userRefs) {f : FiberId W}
    (hself : ref (s'.fib f).self f = ref (s.fib f).self f) :
    owners cfg s' f + held (s.locals w) f = owners cfg s f + held (s'.locals w) f := by
  have hmove := owners_move cfg h hd f
  unfold share queued at hmove
  rw [hq, ht, hu, hself] at hmove
  omega

/-- No worker moves. -/
theorem owners_still (cfg : Sylar.Config W E) (s s' : State W E C) (h : s'.locals = s.locals)
    (hd : s'.destroyed = s.destroyed) (f : FiberId W) :
    owners cfg s' f + (queued s.base f + s.timers.count f + s.userRefs f + ref (s.fib f).self f) =
      owners cfg s f + (queued s'.base f + s'.timers.count f + s'.userRefs f + ref (s'.fib f).self f) := by
  have hsched : mSchedulerFiber cfg s' = mSchedulerFiber cfg s := by
    unfold mSchedulerFiber
    rw [hd]
  unfold owners
  rw [hsched, h]
  omega

/-- What is not constructed yet has no owner. -/
theorem Life.unowned (h : Life cfg s) {f : FiberId W} (hf : NotMain f) (hfresh : Unmade s f) : owners cfg s f = 0 :=
  (h.sound.count f hf).symm.trans (h.sound.fresh f hf hfresh)

theorem owners_user {f : FiberId W} (h : 0 < s.userRefs f) : 0 < owners cfg s f := by
  unfold owners
  omega

theorem owners_running (hi : Inv cfg s) (hend : Ended cfg s) {w : W} {f : FiberId W}
    (h : (s.thread w).runningFiber = some f) (hf : NotMain f) : 0 < owners cfg s f :=
  owners_exec hi hend ((exec_eq_running hi w).trans h) hf

/-- The counts of the main fibers are nobody's concern here. -/
theorem Life.forMain (h : Life cfg s) {r : FiberId W → Nat} {d : FiberId W → Bool}
    (hr : ∀ f, NotMain f → r f = s.refs f ∧ d f = s.dead f) : Life cfg { s with refs := r, dead := d } :=
  ⟨h.sound.keep hr (fun _ _ hf => hf) (fun _ _ => rfl) (fun _ _ _ hg => hg), h.cb⟩

theorem one_update (m : FiberId W → Nat) (f k : FiberId W) : Function.update m f (m f + 1) k = m k + RefCount.one f k :=
  RefCount.hold_apply m f k

theorem count_snoc (l : List (FiberId W)) (f k : FiberId W) : (l ++ [f]).count k = l.count k + RefCount.one f k := by
  rw [List.count_append, List.count_singleton]
  by_cases hk : k = f
  · rw [hk, RefCount.one_self, beq_self_eq_true, if_pos rfl]
  · rw [RefCount.one_of_ne hk, if_neg (fun hn => hk (beq_iff_eq.1 hn).symm)]

/-! ## A reference is copied -/

theorem life_share (h : Life cfg s) {f : FiberId W} (hg : guard cfg s (.share f)) :
    Life cfg (next cfg s (.share f)) := by
  refine ⟨h.sound.hold (l := f) (fun _ => owners_user hg) (fun _ _ hk => hk) ?_ (fun _ _ _ hk => hk), h.cb⟩
  intro k _
  have hown := owners_still cfg s (next cfg s (.share f)) rfl rfl k
  have hone := one_update s.userRefs f k
  simp only [next, State.hold] at hown hone ⊢
  omega

theorem life_getRunning (h : Life cfg s) (hi : Inv cfg s) (hend : Ended cfg s) {w : W} :
    Life cfg (next cfg s (.getRunning w)) := by
  simp only [next]
  split
  · exact h.abort _
  · rename_i f hf
    refine ⟨h.sound.hold (l := f) (owners_running hi hend hf) (fun _ _ hk => hk) ?_ (fun _ _ _ hk => hk), h.cb⟩
    intro k _
    have hown := owners_still cfg s
      { s.hold f with userRefs := Function.update s.userRefs f (s.userRefs f + 1) } rfl rfl k
    have hone := one_update s.userRefs f k
    simp only [State.hold] at hown hone ⊢
    omega

/-- The closure of a timer copies the running fiber. -/
theorem life_addTimer (h : Life cfg s) (hi : Inv cfg s) (hend : Ended cfg s) {w : W} : Life cfg (s.addTimer w) := by
  unfold State.addTimer
  split
  · exact h.abort _
  · rename_i f hf
    refine ⟨h.sound.hold (l := f) (owners_running hi hend hf) (fun _ _ hk => hk) ?_ (fun _ _ _ hk => hk), h.cb⟩
    intro k _
    have hown := owners_still cfg s { s.hold f with timers := s.timers ++ [f] } rfl rfl k
    simp only [State.hold, count_snoc] at hown ⊢
    omega

/-- `runningFiber = getRunningFiber()` in `MainFunc`. -/
theorem life_entry (h : Life cfg s) (hi : Inv cfg s) (hend : Ended cfg s) {w : W} (hg : guard cfg s (.entry w)) :
    Life cfg (next cfg s (.entry w)) := by
  obtain ⟨hm, -⟩ := inMain_of_pc hi hg.1 (Or.inl rfl)
  obtain ⟨f, hst, hrun, -, hlive, -⟩ := hm.facts
  simp only [next, hst, hrun]
  have hlocals : ∀ v, v ≠ w → (State.locals (((s.hold f).setFiber f { s.fib f with self := some f }).goto w .body) v) =
      s.locals v := by
    intro v hv
    simp only [State.locals, State.goto, State.setThread, State.setFiber, State.hold, Function.update_of_ne hv]
  refine ⟨h.sound.hold (l := f) (owners_running hi hend hrun) ?_ ?_ ?_, ?_⟩
  · intro k _ hk
    exact hk
  · intro k _
    have hown := owners_move cfg hlocals rfl k
    have hself : ref (Function.update s.fib f { s.fib f with self := some f } k).self k =
        ref (s.fib k).self k + RefCount.one f k := by
      by_cases hk : k = f
      · subst hk
        rw [Function.update_self, hlive.2, ref_none, ref_some]
        omega
      · rw [Function.update_of_ne hk, RefCount.one_of_ne hk]
        rfl
    simp only [share, held, State.locals, State.goto, State.setThread, State.setFiber, State.hold,
      Function.update_self, hself] at hown
    simp only [State.goto, State.setThread, State.setFiber, State.hold]
    omega
  · intro k _ _ hk
    by_cases hkf : k = f
    · subst hkf
      simpa [Gone] using hk
    · simpa [Gone, hkf] using hk
  · intro v
    by_cases hv : v = w
    · subst hv
      have hcb : CbOk (s.base.worker v, { s.thread v with pc := .body }) := (h.cb v).move rfl rfl rfl (by simp)
      simpa [State.locals] using hcb
    · rw [hlocals v hv]
      exact h.cb v

/-! ## A fiber is constructed -/

theorem life_newFiber (h : Life cfg s) (c : C) : Life cfg (next cfg s (.newFiber c)) := by
  have hz : owners cfg s (.task s.nextId) = 0 := h.unowned (notMain_task _) (Nat.le_refl s.nextId)
  have hself : ref (s.fib (.task s.nextId)).self (.task s.nextId) = 0 := by
    unfold owners at hz
    omega
  have huser : s.userRefs (.task s.nextId) = 0 := by
    unfold owners at hz
    omega
  refine ⟨h.sound.new (l := .task s.nextId) (fun _ => Nat.le_refl s.nextId) (Nat.not_succ_le_self _) ?_ ?_ ?_, h.cb⟩
  · intro k _ hk
    cases k with
    | task n => exact Nat.le_of_succ_le hk
    | _ => exact hk
  · intro k _
    have hown := owners_still cfg s (next cfg s (.newFiber c)) rfl rfl k
    by_cases hk : k = .task s.nextId
    · subst hk
      rw [RefCount.one_self]
      simp only [next, State.newTask, State.construct, State.setFiber, Function.update_self, Fiber.make, ref_none,
        hself, huser] at hown ⊢
      omega
    · rw [RefCount.one_of_ne hk]
      simp only [next, State.newTask, State.construct, State.setFiber, Function.update_of_ne hk] at hown ⊢
      omega
  · intro k _ hk _ hgone
    simpa [next, hk] using hgone

theorem life_make (h : Life cfg s) (hi : Inv cfg s) {w : W} (hg : guard cfg s (.make w)) :
    Life cfg (next cfg s (.make w)) := by
  have hx : (s.base.worker w).pc = .exec := ((sync_run hg.1).1 (hi.sync w)).1
  have hcb : (s.thread w).cbFiber = none := (h.cb w).eq_none (fun _ => hg.1) (by simp [hx]) (by simp [hx])
  obtain ⟨-, -, -, -, -, -, hnone⟩ := (local_run hg.1).1 (hi.local w)
  have hz : owners cfg s (.task s.nextId) = 0 := h.unowned (notMain_task _) (Nat.le_refl s.nextId)
  have hself : ref (s.fib (.task s.nextId)).self (.task s.nextId) = 0 := by
    unfold owners at hz
    omega
  have hlocals : ∀ v, v ≠ w → (next cfg s (.make w)).locals v = s.locals v := by
    intro v hv
    simp [State.locals, next, Function.update_of_ne hv]
  refine ⟨h.sound.new (l := .task s.nextId) (fun _ => Nat.le_refl s.nextId) (Nat.not_succ_le_self _) ?_ ?_ ?_, ?_⟩
  · intro k _ hk
    cases k with
    | task n => exact Nat.le_of_succ_le hk
    | _ => exact hk
  · intro k _
    have hself' : ref ((next cfg s (.make w)).fib k).self k = ref (s.fib k).self k := by
      by_cases hk : k = .task s.nextId
      · subst hk
        simp [next, Fiber.make, hself]
      · simp [next, hk]
    have hheld : held ((next cfg s (.make w)).locals w) k = held (s.locals w) k + RefCount.one (.task s.nextId) k := by
      simp only [held, State.locals, next, State.setThread, State.newTask, State.construct, State.setFiber,
        Function.update_self, hcb, ref_none, ref_some]
      omega
    have hown := owners_locals cfg hlocals rfl rfl rfl rfl hself'
    omega
  · intro k _ hk _ hgone
    simpa [next, hk] using hgone
  · intro v
    by_cases hv : v = w
    · subst hv
      intro _
      simp only [State.locals, next, State.setThread, State.newTask, State.construct, State.setFiber,
        Function.update_self]
      exact ⟨hnone, Or.inl ⟨hx, by simp⟩⟩
    · rw [hlocals v hv]
      exact h.cb v

/-- `run()` makes its idle fiber. -/
theorem life_enter (h : Life cfg s) (hi : Inv cfg s) {w : W} (hg : guard cfg s (.enter w)) :
    Life cfg (next cfg s (.enter w)) := by
  obtain ⟨⟨hpc, -⟩, hx⟩ := hg
  have hcb : (s.thread w).cbFiber = none := (h.cb w).eq_none (by simp [hx]) (by simp [hx]) (by simp [hx])
  have hz : owners cfg s (.idle w) = 0 := h.unowned (notMain_idle w) (Or.inr hx)
  have hself : ref (s.fib (.idle w)).self (.idle w) = 0 := by
    unfold owners at hz
    omega
  have hidle : (s.thread w).idleFiber = none := by
    obtain ⟨-, -, -, -, -, hidle, -⟩ := (local_run hpc).1 (hi.local w)
    by_contra hne
    obtain ⟨i, hsome⟩ := Option.ne_none_iff_exists'.1 hne
    obtain ⟨rfl, -⟩ := hidle i hsome
    have hpos : 0 < owners cfg s (.idle w) := owners_target (k := .idle) hsome
    omega
  have hlocals : ∀ v, v ≠ w → (next cfg s (.enter w)).locals v = s.locals v := by
    intro v hv
    simp [State.locals, next, Sched.next, Function.update_of_ne hv]
  refine ⟨h.sound.new (l := .idle w) (fun _ => Or.inr hx) ?_ ?_ ?_ ?_, ?_⟩
  · simp [Unmade, next, Sched.next, Sched.Worker.Outside]
  · exact fun k _ hk => unmade_next cfg (.enter w) hx hk rfl rfl
  · intro k _
    have hself' : ref ((next cfg s (.enter w)).fib k).self k = ref (s.fib k).self k := by
      by_cases hk : k = .idle w
      · subst hk
        simp [next, Fiber.make, hself]
      · simp [next, hk]
    have hheld : held ((next cfg s (.enter w)).locals w) k = held (s.locals w) k + RefCount.one (.idle w) k := by
      simp only [held, State.locals, next, Sched.next, Sched.State.setWorker, State.setThread, State.construct,
        State.setFiber, Function.update_self, hidle, ref_none, ref_some]
      omega
    have hown := owners_locals cfg hlocals rfl rfl rfl rfl hself'
    omega
  · intro k _ hk _ hgone
    simpa [next, hk] using hgone
  · intro v
    by_cases hv : v = w
    · subst hv
      refine CbOk.of_none ?_
      simpa [State.locals, next] using hcb
    · rw [hlocals v hv]
      exact h.cb v

/-! ## A reference is dropped -/

/-- A pointer is reset. -/
theorem sound_dropAny {T fresh fresh' gone gone' : FiberId W → Prop} {own own' : FiberId W → Nat}
    (h : RefCount.Sound T fresh gone s.refs own s.dead) {o : Option (FiberId W)} (hf : ∀ k, T k → fresh' k → fresh k)
    (ho : ∀ k, T k → own k = own' k + ref o k) (hg : ∀ k, T k → own k = 0 → gone k → gone' k)
    (hlast : ∀ f, o = some f → T f → own f = 1 → gone' f) :
    RefCount.Sound T fresh' gone' (s.dropAny o).refs own' (s.dropAny o).dead := by
  cases o with
  | none =>
    refine h.keep (fun _ _ => ⟨rfl, rfl⟩) hf ?_ hg
    intro k hk
    have hown := ho k hk
    rw [ref_none] at hown
    omega
  | some f =>
    refine h.drop hf ?_ hg (fun hf hone => hlast f rfl hf hone)
    intro k hk
    rw [ho k hk, ref_some]

/-- User code gives a reference away. -/
theorem drop_user {f : FiberId W} (h : 0 < s.userRefs f) (k : FiberId W) :
    Function.update s.userRefs f (s.userRefs f - 1) k + RefCount.one f k = s.userRefs k := by
  have hdrop := RefCount.drop_apply s.userRefs f k
  unfold RefCount.drop at hdrop
  by_cases hk : k = f
  · subst hk
    rw [RefCount.one_self] at hdrop ⊢
    omega
  · rw [RefCount.one_of_ne hk] at hdrop ⊢
    omega

theorem life_release (h : Life cfg s) (hi : Inv cfg s) {f : FiberId W} (hi' : Inv cfg (next cfg s (.release f)))
    (hg : guard cfg s (.release f)) : Life cfg (next cfg s (.release f)) := by
  obtain ⟨n, rfl, -⟩ := hi.typed.users f hg
  have howners : ∀ k, owners cfg s k = owners cfg (next cfg s (.release (.task n))) k + RefCount.one (.task n) k := by
    intro k
    have hown := owners_still cfg s (next cfg s (.release (.task n))) rfl rfl k
    have huser := drop_user hg k
    simp only [next, State.drop] at hown huser ⊢
    omega
  refine ⟨h.sound.drop (l := .task n) (fun _ _ hk => hk) (fun k _ => howners k) (fun _ _ _ hk => hk) ?_, h.cb⟩
  intro _ hone
  have hown := howners (.task n)
  rw [hone, RefCount.one_self] at hown
  exact gone_of_ownerless hi' (by omega)

/-- `task` and `cb_fiber` together refer to the fiber of the task at hand, once. -/
theorem held_target {x : Sched.Worker (FiberId W) C} {t : Thread W} (h : CbOk (x, t)) (k : FiberId W) :
    ref (x.task.bind fun e => e.task.fiber) k + ref t.cbFiber k = ref (t.target x .task) k := by
  unfold Thread.target
  by_cases hcb : t.cbFiber = none
  · rw [hcb, ref_none, Option.or_none]
    rfl
  · rw [(h hcb).1, ref_none, Option.none_or]
    exact Nat.zero_add _

/-- `task.reset()`, and the end of `cb_fiber`. -/
theorem life_reset (h : Life cfg s) (hi : Inv cfg s) {w : W} (hi' : Inv cfg (next cfg s (.reset w)))
    (hg : guard cfg s (.reset w)) : Life cfg (next cfg s (.reset w)) := by
  have hparts : (next cfg s (.reset w)).fib = s.fib ∧ (next cfg s (.reset w)).nextId = s.nextId ∧
      (next cfg s (.reset w)).destroyed = s.destroyed ∧
      (next cfg s (.reset w)).timers = s.timers ∧ (next cfg s (.reset w)).userRefs = s.userRefs ∧
      (next cfg s (.reset w)).thread = Function.update s.thread w { s.thread w with cbFiber := none } := by
    simp only [next]
    cases s.target w .task <;> exact ⟨rfl, rfl, rfl, rfl, rfl, rfl⟩
  obtain ⟨hfib, hid, hdes, htimers, husers, hthread⟩ := hparts
  have hlocals : ∀ v, v ≠ w → (next cfg s (.reset w)).locals v = s.locals v := by
    intro v hv
    unfold State.locals
    rw [hthread, Function.update_of_ne hv]
    simp [next, Sched.next, Function.update_of_ne hv]
  have howners : ∀ k, owners cfg s k = owners cfg (next cfg s (.reset w)) k + ref (s.target w .task) k := by
    intro k
    have hown := owners_locals cfg hlocals hdes rfl htimers husers (f := k) (by rw [hfib])
    have hheld : held (s.locals w) k = held ((next cfg s (.reset w)).locals w) k + ref (s.target w .task) k := by
      have htarget := held_target (h.cb w) k
      unfold held State.locals State.target at *
      rw [hthread, Function.update_self]
      simp only [next, Sched.next, Sched.State.setWorker, Function.update_self, Option.bind_none, ref_none]
      omega
    omega
  refine ⟨sound_dropAny h.sound ?_ (fun k _ => howners k) ?_ ?_, ?_⟩
  · exact fun k _ hk => unmade_next cfg (.reset w) hg.2 hk rfl hid
  · intro k _ _ hgone
    rwa [hfib]
  · intro f hf _ hone
    obtain ⟨n, rfl, -⟩ := target_made hi.typed hf
    have hown := howners (.task n)
    rw [hone, hf, ref_some, RefCount.one_self] at hown
    exact gone_of_ownerless hi' (by omega)
  · intro v
    by_cases hv : v = w
    · subst hv
      refine CbOk.of_none ?_
      unfold State.locals
      rw [hthread, Function.update_self]
    · rw [hlocals v hv]
      exact h.cb v

/-- `runningFiber.reset()`: the fiber is `TERM`. -/
theorem life_dropSelf (h : Life cfg s) (hi : Inv cfg s) {w : W} (hg : guard cfg s (.dropSelf w)) :
    Life cfg (next cfg s (.dropSelf w)) := by
  obtain ⟨hm, -⟩ := inMain_of_pc hi hg.1 (by simp [Pc.InMainFunc])
  obtain ⟨f, hst, -, -, ⟨hterm, hself⟩, -⟩ := hm.facts
  simp only [next, hst]
  have hlocals : ∀ v, v ≠ w → State.locals (((s.dropAny (s.fib f).self).setFiber f
      { s.fib f with rawPtr := (s.fib f).self, self := none }).goto w .last) v = s.locals v := by
    intro v hv
    rw [hself]
    simp only [State.locals, State.goto, State.setThread, State.setFiber, State.dropAny, State.drop,
      Function.update_of_ne hv]
  have hheld : ∀ k, held (State.locals (((s.dropAny (s.fib f).self).setFiber f
      { s.fib f with rawPtr := (s.fib f).self, self := none }).goto w .last) w) k = held (s.locals w) k := by
    intro k
    rw [hself]
    simp only [held, State.locals, State.goto, State.setThread, State.setFiber, State.dropAny, State.drop,
      Function.update_self]
  refine ⟨sound_dropAny h.sound (fun _ _ hk => ?_) ?_ ?_ ?_, ?_⟩
  · rw [hself] at hk
    exact hk
  · intro k _
    rw [hself] at hlocals hheld ⊢
    have hown := owners_move cfg hlocals rfl k
    have hone : ref (s.fib k).self k =
        ref (Function.update s.fib f { s.fib f with rawPtr := some f, self := none } k).self k +
        ref (some f) k := by
      by_cases hk : k = f
      · subst hk
        rw [Function.update_self, hself, ref_none, Nat.zero_add]
      · rw [Function.update_of_ne hk, ref_some, RefCount.one_of_ne hk]
        rfl
    unfold share at hown
    rw [hheld, hone] at hown
    simp only [State.goto, State.setThread, State.setFiber, State.dropAny, State.drop] at hown ⊢
    omega
  · intro k _ _ hgone
    by_cases hk : k = f
    · subst hk
      exact Or.inr (by simpa using hterm)
    · simpa [State.dropAny, hk, hself] using hgone
  · intro k hk _ _
    obtain rfl : f = k := Option.some_inj.1 (hself.symm.trans hk)
    exact Or.inr (by simpa using hterm)
  · intro v
    by_cases hv : v = w
    · subst hv
      rw [hself]
      have hcb : CbOk (s.base.worker v, { s.thread v with pc := .last }) := (h.cb v).move rfl rfl rfl (by simp)
      simpa [State.locals, State.dropAny] using hcb
    · rw [hlocals v hv]
      exact h.cb v

/-- `run()` returns and drops its idle fiber. What its thread does to other fibers ends none of them. -/
theorem Life.leave (h : Life cfg s) (hi : Inv cfg s) {w : W} (hg : guard cfg s (.leave w)) (pc : Pc W)
    (fib : FiberId W → Fiber W C) (hpc : pc ≠ .run .make) (hself : ∀ f, NotMain f → (fib f).self = (s.fib f).self)
    (hgone : ∀ f, Gone (s.fib f) → Gone (fib f))
    (hs : s' = { s.dropAny (s.thread w).idleFiber with
      thread := Function.update s.thread w { s.thread w with idleFiber := none, pc := pc }, fib := fib }) :
    Life cfg s' := by
  obtain ⟨hidle, hhas⟩ := hi.idle hg (by simp)
  have hterm : (s.fib (.idle w)).mState = .term :=
    (has_iff.1 hhas).2.2 (((sync_run hg.1.1).1 (hi.sync w)).2.2.2.1 hg.2)
  rw [hidle] at hs
  have hlocals : ∀ v, v ≠ w → s'.locals v = s.locals v := by
    intro v hv
    rw [hs]
    simp only [State.locals, Function.update_of_ne hv, base_dropAny]
  have howners : ∀ k, NotMain k → owners cfg s k = owners cfg s' k + ref (some (.idle w)) k := by
    intro k hk
    have hself : ref (s'.fib k).self k = ref (s.fib k).self k := by
      rw [hs]
      exact congrArg (fun o => ref o k) (hself k hk)
    have hown := owners_locals cfg hlocals (by rw [hs]; rfl) (by rw [hs, base_dropAny]) (by rw [hs]; rfl)
      (by rw [hs]; rfl) hself
    have hheld : held (s.locals w) k = held (s'.locals w) k + ref (some (.idle w)) k := by
      rw [hs]
      simp only [held, State.locals, Function.update_self, base_dropAny, hidle, ref_none, Nat.add_zero]
    omega
  have hsound : RefCount.Sound NotMain (Unmade s') (fun f => Gone (s'.fib f)) (s.dropAny (some (.idle w))).refs
      (owners cfg s') (s.dropAny (some (.idle w))).dead := by
    refine sound_dropAny h.sound ?_ howners ?_ ?_
    · intro k _ hk
      rw [hs] at hk
      exact hk
    · intro k _ _ hk
      rw [hs]
      exact hgone k hk
    · intro f hf _ _
      cases hf
      rw [hs]
      exact hgone _ (Or.inr hterm)
  refine ⟨by rw [hs] at hsound ⊢; exact hsound, ?_⟩
  intro v
  by_cases hv : v = w
  · subst hv
    have hcb : CbOk (s.base.worker v, { s.thread v with idleFiber := none, pc := pc }) :=
      (h.cb v).move rfl rfl rfl hpc
    rw [hs]
    simpa only [State.locals, Function.update_self, base_dropAny] using hcb
  · rw [hlocals v hv]
    exact h.cb v

theorem life_leave (h : Life cfg s) (hi : Inv cfg s) {w : W} (hg : guard cfg s (.leave w)) :
    Life cfg (next cfg s (.leave w)) := by
  simp only [next]
  split
  · refine h.leave hi hg .gone s.fib (by simp) (fun _ _ => rfl) (fun _ hf => hf) ?_
    simp
  · rename_i f hst
    simp only [State.endCb, State.setThread, Function.update_self, hst, fib_dropAny]
    split
    · refine Life.abort (h.leave hi hg (s.thread w).pc s.fib ?_ (fun _ _ => rfl) (fun _ hf => hf) ?_) _
      · rw [hg.1.1]
        simp
      · simp [hst]
    · rename_i x _
      refine h.leave hi hg .setTerm (Function.update s.fib x { s.fib x with mCb := none }) (by simp)
        (self_update fun _ => rfl) ?_ ?_
      · intro k hk
        by_cases hkx : k = x
        · subst hkx
          simpa [Gone] using hk
        · rwa [Function.update_of_ne hkx]
      · simp [hst]

/-- `~Scheduler` drops `m_schedulerFiber`, which was never started or has ended. -/
theorem life_destroy (h : Life cfg s) (hi : Inv cfg s) {e : E} (hg : guard cfg s (.destroy e)) :
    Life cfg (next cfg s (.destroy e)) := by
  obtain ⟨-, -, -, hnative⟩ := hg
  have hcopy : (next cfg s (.destroy e)).fib = s.fib ∧ (next cfg s (.destroy e)).nextId = s.nextId ∧
      (next cfg s (.destroy e)).timers = s.timers ∧ (next cfg s (.destroy e)).userRefs = s.userRefs ∧
      (next cfg s (.destroy e)).thread = s.thread ∧ (next cfg s (.destroy e)).base = s.base := by
    simp only [next]
    cases mSchedulerFiber cfg s <;> exact ⟨rfl, rfl, rfl, rfl, rfl, rfl⟩
  obtain ⟨hfib, hid, htimers, husers, hthread, hbase⟩ := hcopy
  have hlocals : (next cfg s (.destroy e)).locals = s.locals := by
    funext w
    unfold State.locals
    rw [hthread, hbase]
  refine ⟨sound_dropAny h.sound ?_ ?_ ?_ ?_, ?_⟩
  · intro k _ hk
    cases k with
    | task n =>
      have hk : (next cfg s (.destroy e)).nextId ≤ n := hk
      rwa [hid] at hk
    | idle w =>
      have hk : ((next cfg s (.destroy e)).base.worker w).Outside := hk
      rwa [hbase] at hk
    | main w | sched => exact hk
  · intro k _
    have hnone : mSchedulerFiber cfg (next cfg s (.destroy e)) = none := if_neg (fun hn => by cases hn.2)
    unfold owners
    rw [hnone, hbase, hlocals, htimers, husers, hfib, ref_none]
    omega
  · intro k _ _ hk
    rwa [hfib]
  · intro f hf _ _
    rw [hfib]
    unfold mSchedulerFiber at hf
    split_ifs at hf with hroot
    cases hf
    obtain ⟨w, hw⟩ := Option.isSome_iff_exists.1 hroot.1
    have hy := hi.sync w
    simp only [Sync, hnative w hw] at hy
    rcases hy with ⟨-, hready⟩ | ⟨-, hterm⟩
    · exact Or.inl (has_iff.1 hready).2.2
    · exact Or.inr (has_iff.1 hterm).2
  · intro w
    rw [hlocals]
    exact h.cb w

/-! ## Between the queue and the others -/

/-- An entry of `m_tasks` refers to its fiber. -/
theorem queued_push (b : Sched.State W E (FiberId W) C) (t : ScheduleTask (FiberId W) C) (f : FiberId W) :
    queued (b.push t) f = queued b f + ref t.fiber f := by
  unfold Sched.State.push
  split
  · unfold queued
    rw [List.filterMap_append, List.count_append]
    cases hf : t.fiber with
    | none => simp [hf]
    | some g =>
      rw [ref_some, ← count_snoc, List.count_append]
      simp [hf]
  · rename_i hempty
    have hnone : t.fiber = none := by
      cases hf : t.fiber with
      | none => rfl
      | some g => simp [ScheduleTask.nonEmpty, hf] at hempty
    rw [hnone, ref_none, Nat.add_zero]

/-- `scheduleLock`, apart from where the task comes from. -/
theorem queued_scheduleLock (cfg : Sylar.Config W E) (b : Sched.State W E (FiberId W) C) (t : W ⊕ E)
    (fc : FiberOrCallback (FiberId W) C) (thr : Int) (f : FiberId W) :
    queued (Sched.next cfg b (.scheduleLock t fc thr)) f = queued b f + ref (ScheduleTask.make fc thr).fiber f :=
  queued_push b _ f

theorem worker_scheduleLock (cfg : Sylar.Config W E) (b : Sched.State W E (FiberId W) C) (t : W ⊕ E)
    (fc : FiberOrCallback (FiberId W) C) (thr : Int) :
    (Sched.next cfg b (.scheduleLock t fc thr)).worker = b.worker := by
  simp only [Sched.next, Sched.State.push]
  split <;> rfl

/-- The timer's callback schedules the fiber of its closure. -/
theorem life_fire (h : Life cfg s) {e : E} {i : Nat} : Life cfg (next cfg s (.fire e i)) := by
  simp only [next]
  split
  · exact h
  · rename_i f hf
    refine ⟨h.sound.keep (fun _ _ => ⟨rfl, rfl⟩) (fun _ _ hk => hk) ?_ (fun _ _ _ hk => hk), h.cb⟩
    intro k _
    have hown := owners_still cfg s { s with
      base := Sched.next cfg s.base (.scheduleLock (.inr e) (.fiber (some f)) (-1))
      timers := s.timers.eraseIdx i } rfl rfl k
    have hcount : (s.timers.eraseIdx i).count k + RefCount.one f k = s.timers.count k := by
      obtain ⟨hlt, hget⟩ := List.getElem?_eq_some_iff.1 hf
      rw [← (List.getElem_cons_eraseIdx_perm hlt).count_eq k, hget, List.count_cons]
      by_cases hk : k = f
      · rw [hk, RefCount.one_self, beq_self_eq_true, if_pos rfl]
      · rw [RefCount.one_of_ne hk, if_neg (fun hn => hk (beq_iff_eq.1 hn).symm)]
    have hqueue := queued_scheduleLock cfg s.base (.inr e) (.fiber (some f)) (-1) k
    simp only [ScheduleTask.make, ref_some] at hqueue
    dsimp only at hown
    omega

/-- A step of the scheduler that moves no reference. -/
theorem Life.base (h : Life cfg s) {a : Sched.Act W E (FiberId W) C} (hg : Sched.guard cfg s.base a)
    (hq : (Sched.next cfg s.base a).mTasks = s.base.mTasks)
    (ht : ∀ w, ((Sched.next cfg s.base a).worker w).task = (s.base.worker w).task)
    (hcb : ∀ w, CbOk ((Sched.next cfg s.base a).worker w, s.thread w)) :
    Life cfg { s with base := Sched.next cfg s.base a } := by
  have hquiet : Quiet s { s with base := Sched.next cfg s.base a } := by
    refine ⟨hq, ?_, rfl, rfl, rfl, fun _ _ => rfl⟩
    intro w f
    simp only [held, State.locals, ht]
  exact ⟨h.sound.keep (fun _ _ => ⟨rfl, rfl⟩) (fun _ _ hk => unmade_next cfg a hg hk rfl rfl)
    (fun _ hk => hquiet.owners hk) (fun _ _ _ hk => hk), hcb⟩

/-- A task without a fiber is queued. -/
theorem Life.queue (h : Life cfg s) {t : W ⊕ E} {fc : FiberOrCallback (FiberId W) C} {thr : Int}
    (hnone : (ScheduleTask.make fc thr).fiber = none) :
    Life cfg { s with base := Sched.next cfg s.base (.scheduleLock t fc thr) } := by
  have hworker := worker_scheduleLock cfg s.base t fc thr
  refine ⟨h.sound.keep (fun _ _ => ⟨rfl, rfl⟩) ?_ ?_ (fun _ _ _ hk => hk), ?_⟩
  · intro k _ hk
    cases k with
    | idle w =>
      have hk : ((Sched.next cfg s.base (.scheduleLock t fc thr)).worker w).Outside := hk
      rwa [hworker] at hk
    | _ => exact hk
  · intro k _
    have hqueue := queued_scheduleLock cfg s.base t fc thr k
    rw [hnone, ref_none, Nat.add_zero] at hqueue
    unfold owners State.locals mSchedulerFiber
    dsimp only
    rw [hqueue, hworker]
  · intro w
    have hcb := h.cb w
    unfold State.locals at hcb ⊢
    dsimp only
    rwa [hworker]

/-- A fiber is queued: its reference is copied, or handed over. -/
theorem life_scheduleLock (h : Life cfg s) (hi : Inv cfg s) (hend : Ended cfg s) {t : W ⊕ E}
    {fc : FiberOrCallback (FiberId W) C} {thr : Int} (hpass : mayPass s t fc) :
    Life cfg (next cfg s (.base (.scheduleLock t fc thr))) := by
  cases fc with
  | fiber o =>
    cases o with
    | none => exact h.queue rfl
    | some f =>
      refine ⟨h.sound.hold (l := f) ?_ (fun _ _ hk => hk) ?_ (fun _ _ _ hk => hk), h.cb⟩
      · intro hf
        cases t with
        | inl w =>
          rcases hpass with hpass | hpass
          · exact owners_user hpass
          · exact owners_running hi hend hpass hf
        | inr e => exact owners_user hpass
      · intro k _
        have hown := owners_still cfg s (next cfg s (.base (.scheduleLock t (.fiber (some f)) thr))) rfl rfl k
        have hqueue := queued_scheduleLock cfg s.base t (.fiber (some f)) thr k
        simp only [ScheduleTask.make, ref_some] at hqueue
        simp only [next, State.hold] at hown ⊢
        omega
  | fiberPtr o =>
    cases o with
    | none => exact h.queue rfl
    | some f =>
      have huser : 0 < s.userRefs f := by cases t <;> exact hpass
      refine ⟨h.sound.keep (fun _ _ => ⟨rfl, rfl⟩) (fun _ _ hk => hk) ?_ (fun _ _ _ hk => hk), h.cb⟩
      intro k _
      have hown := owners_still cfg s (next cfg s (.base (.scheduleLock t (.fiberPtr (some f)) thr))) rfl rfl k
      have hqueue := queued_scheduleLock cfg s.base t (.fiberPtr (some f)) thr k
      have hdrop := drop_user huser k
      simp only [ScheduleTask.make, ref_some] at hqueue
      simp only [next] at hown ⊢
      omega
  | callback c | callbackPtr c => exact h.queue rfl

/-- A scan moves a reference from the queue to `task`. -/
theorem life_scan (h : Life cfg s) (hok : ∀ w, (s.base.worker w).Ok) {w : W} (hg : Sched.guard cfg s.base (.scan w)) :
    Life cfg (next cfg s (.base (.scan w))) := by
  have hx : (s.base.worker w).pc = .scan := hg
  have hcb : (s.thread w).cbFiber = none := (h.cb w).eq_none (by simp [hx]) (by simp [hx]) (by simp [hx])
  have htask : (s.base.worker w).task = none := by
    have hok := hok w
    simpa only [Sched.Worker.Ok, hx] using hok
  have hcbs : ∀ x : Sched.Worker (FiberId W) C, ∀ v, CbOk (Function.update s.base.worker w x v, s.thread v) := by
    intro x v
    by_cases hv : v = w
    · subst hv
      exact CbOk.of_none hcb
    · rw [Function.update_of_ne hv]
      exact h.cb v
  cases hr : (scan (cfg.tid w) s.base.mTasks).task with
  | none =>
    have hnext : Sched.next cfg s.base (.scan w) = s.base.setWorker w { s.base.worker w with
        pc := .tickle, task := none, tickleMe := (scan (cfg.tid w) s.base.mTasks).tickleMe } := by
      simp only [Sched.next, hr]
    refine h.base hg (by rw [hnext]; rfl) ?_ (by rw [hnext]; exact hcbs _)
    intro v
    rw [hnext]
    by_cases hv : v = w
    · subst hv
      rw [Sched.State.worker_self, htask]
    · rw [Sched.State.worker_ne _ hv]
  | some e =>
    obtain ⟨l₁, l₂, hq, -, -, hrest⟩ := scan_some hr
    by_cases hne : e.task.nonEmpty = true
    · have hnext : Sched.next cfg s.base (.scan w) = { s.base.setWorker w { s.base.worker w with
          pc := .tickle, task := some e, tickleMe := (scan (cfg.tid w) s.base.mTasks).tickleMe } with
          mTasks := l₁ ++ l₂
          mActiveThreadCnt := s.base.mActiveThreadCnt + 1
          fetched := s.base.fetched ++ [e] } := by
        simp only [Sched.next, hr, if_pos hne, hrest]
      have hlocals : ∀ v, v ≠ w → (next cfg s (.base (.scan w))).locals v = s.locals v := by
        intro v hv
        simp only [State.locals, next, hnext, Sched.State.setWorker, Function.update_of_ne hv]
      refine ⟨h.sound.keep (fun _ _ => ⟨rfl, rfl⟩) ?_ ?_ (fun _ _ _ hk => hk), ?_⟩
      · exact fun k _ hk => unmade_next cfg (.scan w) hg hk rfl rfl
      · intro k _
        have hown := owners_move cfg hlocals rfl k
        have hqueue : queued (next cfg s (.base (.scan w))).base k + ref e.task.fiber k = queued s.base k := by
          simp only [next, hnext, queued, hq, List.filterMap_append, List.count_append, List.filterMap_cons]
          cases hf : e.task.fiber with
          | none => simp
          | some g =>
            have hcons := count_snoc [] g k
            simp only [ref_some, List.count_cons, List.nil_append, List.count_nil, Nat.zero_add] at hcons ⊢
            omega
        have hheld : held ((next cfg s (.base (.scan w))).locals w) k = held (s.locals w) k + ref e.task.fiber k := by
          simp only [held, State.locals, next, hnext, Sched.State.setWorker, Function.update_self, htask,
            Option.bind_none, Option.bind_some, ref_none]
          omega
        unfold share at hown
        rw [hheld] at hown
        simp only [next] at hown hqueue ⊢
        omega
      · intro v
        simp only [State.locals, next, hnext]
        exact hcbs _ v
    · have hnext : Sched.next cfg s.base (.scan w) = s.base.abort .nonEmptyTask := by
        simp only [Sched.next, hr, if_neg hne]
      simp only [next, hnext]
      exact h.abort _

/-- The scheduler's own steps. -/
theorem life_base (h : Life cfg s) (hi : Inv cfg s) (hend : Ended cfg s) (hok : ∀ w, (s.base.worker w).Ok)
    {a : Sched.Act W E (FiberId W) C} (hg : guard cfg s (.base a)) : Life cfg (next cfg s (.base a)) := by
  obtain ⟨hg, ha⟩ := hg
  -- a worker in `run()` moves on
  have hmove : ∀ w pc, Sched.guard cfg s.base a → (Sched.next cfg s.base a).mTasks = s.base.mTasks →
      (Sched.next cfg s.base a).worker = Function.update s.base.worker w { s.base.worker w with pc := pc } →
      CbOk ({ s.base.worker w with pc := pc }, s.thread w) → Life cfg { s with base := Sched.next cfg s.base a } := by
    intro w pc hg hq hw hcb
    refine h.base hg hq ?_ ?_
    · intro v
      rw [hw]
      by_cases hv : v = w
      · rw [hv, Function.update_self]
      · rw [Function.update_of_ne hv]
    · intro v
      rw [hw]
      by_cases hv : v = w
      · rw [hv, Function.update_self]
        exact hcb
      · rw [Function.update_of_ne hv]
        exact h.cb v
  cases a with
  | scheduleLock t fc thr => exact life_scheduleLock h hi hend ha.2
  | scan w => exact life_scan h hok hg
  | tickle w =>
    have hx : (s.base.worker w).pc = .tickle := hg
    exact hmove w .dispatch hg rfl rfl
      (CbOk.of_none ((h.cb w).eq_none (by simp [hx]) (by simp [hx]) (by simp [hx])))
  | decr w =>
    refine hmove w .reset hg rfl rfl ?_
    intro hcb
    exact ⟨(h.cb w hcb).1, Or.inr (Or.inr rfl)⟩
  | start e =>
    simp only [next]
    refine h.base hg ?_ ?_ ?_
    · simp only [Sched.next]
      split_ifs <;> rfl
    · intro w
      simp only [Sched.next]
      split_ifs
      · rfl
      · rfl
      · dsimp only
        split_ifs <;> rfl
    · intro w
      simp only [Sched.next]
      split_ifs
      · exact h.cb w
      · exact h.cb w
      · dsimp only
        split_ifs with hunborn
        · exact CbOk.of_none
            ((h.cb w).eq_none (by simp [hunborn.2]) (by simp [hunborn.2]) (by simp [hunborn.2]))
        · exact h.cb w
  | stopCheck e | stopAssert e | stopJoin e =>
    simp only [next]
    refine h.base hg ?_ ?_ ?_
    · simp only [Sched.next]
      split <;> rfl
    · intro w
      simp only [Sched.next]
      split <;> rfl
    · intro w
      simp only [Sched.next]
      split <;> exact h.cb w
  | wakeUp t | stopCall e | stopSet e | stopTickle e | stopSwap e | stopEnd e =>
    exact h.base hg rfl (fun _ => rfl) h.cb
  | _ => cases ha

/-! ## Around `run()` -/

theorem life_prologue (h : Life cfg s) {w : W} :
    Life cfg (next cfg s (.prologue w)) := by
  simp only [next]
  split_ifs with hunborn
  · have hmade : Life cfg { s with
        fib := Function.update s.fib (.main w) (Fiber.main w)
        thread := Function.update s.thread w { s.thread w with
          pc := .run .main
          runningFiber := some (.main w)
          mainFiber := some (.main w)
          schedulerFiber := some (.main w) } } := by
      exact h.moved (w := w) (m := s.mMutex) rfl (BaseMoves.refl _ _) id rfl ⟨rfl, rfl⟩
        (self_update fun hf => absurd rfl (hf w)) (gone_update fun hf => absurd rfl (hf w))
        ((h.cb w).move rfl rfl rfl (by simp))
    refine hmade.forMain (r := Function.update s.refs (.main w) 1) (d := Function.update s.dead (.main w) false) ?_
    intro f hf
    exact ⟨Function.update_of_ne (hf w) _ _, Function.update_of_ne (hf w) _ _⟩
  · exact h.went (w := w) (m := s.mMutex) rfl (BaseMoves.refl _ _) id rfl ⟨rfl, rfl⟩
      ((h.cb w).move rfl rfl rfl (by simp))

theorem life_stopResume (h : Life cfg s) (hi : Inv cfg s) (hd : s.destroyed = false) {e : E}
    (hg : guard cfg s (.stopResume e)) : Life cfg (next cfg s (.stopResume e)) := by
  obtain ⟨hstop, hnative⟩ := hg
  simp only [next]
  split
  · rename_i hroot
    have hnext : Sched.next cfg s.base (.stopResume e) = s.base.stopTo e .swap := by
      simp only [Sched.next, hroot]
    exact h.base hstop (by rw [hnext]; rfl) (by rw [hnext]; exact fun _ => rfl) (by rw [hnext]; exact h.cb)
  · rename_i w hroot
    have hpc := hnative w hroot
    have hl := hi.local w
    simp only [Local, hpc] at hl
    obtain ⟨-, hst, -, hmain, -, -, -, hsched, -⟩ := hl
    have hy := hi.sync w
    simp only [Sync, hpc] at hy
    split_ifs with hready
    · have hunborn : (s.base.worker w).pc = .unborn := by
        rcases hy with ⟨hx, -⟩ | ⟨-, hterm⟩
        · exact hx
        · rw [(has_iff.1 hterm).2] at hready
          cases hready
      have hcbnone : (s.thread w).cbFiber = none :=
        (h.cb w).eq_none (by simp [hunborn]) (by simp [hunborn]) (by simp [hunborn])
      have hc : Coherent (s.setFiber .sched { s.fib .sched with mState := .running }).fib :=
        hi.coherent.update ⟨(hi.coherent .sched).ctx, (hi.coherent .sched).fresh, (hi.coherent .sched).started⟩
      have hpartner : (s.setFiber .sched { s.fib .sched with mState := .running }).partner w .sched =
          some (.main w) := by
        simp only [State.partner, State.setFiber, Function.update_self, (hi.static .sched).1]
        exact hmain
      have hexec : (s.setFiber .sched { s.fib .sched with mState := .running }).exec w = some (.main w) := by
        simp only [State.exec, State.setFiber, hst]
        exact hmain
      rw [swapIn_eq (hc _).ctx hpartner hexec hst (by simp)]
      refine h.moved (w := w) (m := s.mMutex) rfl (BaseMoves.of rfl rfl fun _ he => he) (fun _ => Or.inl hunborn) ?_
        ⟨rfl, rfl⟩ ?_ ?_ (CbOk.of_none hcbnone)
      · simp
      · intro f hf
        by_cases hfs : f = .sched
        · rw [hfs]
          simp
        · simp [hfs, hf w]
      · intro f hf hz hgone
        have hfs : f ≠ .sched := by
          rintro rfl
          have hpos : 0 < owners cfg s .sched := owners_sched (by rw [hroot]; rfl) hd
          omega
        simpa [hfs, hf w] using hgone
    · exact h.abort _

theorem life_stopBack (h : Life cfg s) {e : E} : Life cfg (next cfg s (.stopBack e)) := by
  simp only [next]
  split
  · exact h
  · rename_i w _
    exact h.went (w := w) (m := s.mMutex) rfl ⟨rfl, fun _ _ => rfl, fun _ he => he⟩ id rfl ⟨rfl, rfl⟩
      ((h.cb w).move rfl rfl rfl (by simp))

theorem life_idle (h : Life cfg s) (hi : Inv cfg s) (hend : Ended cfg s) {w : W} (hg : guard cfg s (.idle w)) :
    Life cfg (next cfg s (.idle w)) := by
  obtain ⟨⟨hpc, -⟩, -⟩ := hg
  have hm := body_inMain hi hpc
  simp only [next]
  split
  · exact h
  · rename_i v hv
    obtain ⟨rfl, hrun⟩ := idler_eq hm hv
    have hmake : (s.thread v).pc ≠ .run .make := by
      rw [hpc]
      simp
    split
    · exact life_idleTo h hmake
    · split_ifs
      · have harmed := life_addTimer h hi hend (w := v)
        simp only [State.addTimer, hrun] at harmed ⊢
        exact life_yieldRunning harmed (hi.arm (Or.inr ⟨v, rfl⟩)) hend
      · exact life_idleTo h hmake
    · exact life_yieldRunning h hi hend
    · exact life_endCb h hi hend hpc
    · exact h

/-! ## Every step -/

/-- **Every step keeps the account.** -/
theorem life_next (h : Life cfg s) (hi : Inv cfg s) (hend : Ended cfg s) (hok : ∀ w, (s.base.worker w).Ok)
    {a : Act W E C} (hu : usable s a) (hg : guard cfg s a) (hp : NoIdleTimer s a) : Life cfg (next cfg s a) := by
  have hi' := inv_next hi hg hp
  cases a with
  | base a => exact life_base h hi hend hok hg
  | newFiber c => exact life_newFiber h c
  | share f => exact life_share h hg
  | getRunning w => exact life_getRunning h hi hend
  | release f => exact life_release h hi hi' hg
  | fire e i => exact life_fire h
  | prologue w => exact life_prologue h
  | enter w => exact life_enter h hi hg
  | top w => exact life_top h hok hg
  | dispatch w => exact life_dispatch h hg
  | make w => exact life_make h hi hg
  | lock w => exact life_lock h
  | check w => exact life_check h
  | set w k => exact life_set h
  | swap w k => exact life_swap h hi hg
  | unlock w => exact life_unlock h hi hg
  | reset w => exact life_reset h hi hi' hg
  | idleInc w => exact life_idleInc h hg
  | idleDec w => exact life_idleDec h hi hg
  | leave w => exact life_leave h hi hg
  | entry w => exact life_entry h hi hend hg
  | sleep w => exact life_addTimer h hi hend
  | yield w => exact life_yieldRunning h hi hend
  | ret w =>
    obtain ⟨n, hpc, -⟩ := user_task hi hg
    exact life_endCb h hi hend hpc
  | idle w => exact life_idle h hi hend hg
  | setTerm w => exact life_setTerm h hi hend hg
  | dropSelf w => exact life_dropSelf h hi hg
  | last w => exact life_last h hi hend hg
  | yswap w => exact life_yswap h hi hend hg
  | stopResume e => exact life_stopResume h hi hu hg
  | stopBack e => exact life_stopBack h
  | destroy e => exact life_destroy h hi hg

theorem life_initial (cfg : Sylar.Config W E) : Life cfg (initial C cfg) := by
  have hcb : ∀ w, ((initial C cfg).thread w).cbFiber = none ∧ ((initial C cfg).thread w).idleFiber = none := by
    intro w
    simp only [initial]
    split_ifs <;> exact ⟨rfl, rfl⟩
  have hheld : ∀ w f, held ((initial C cfg).locals w) f = 0 := by
    intro w f
    unfold held State.locals
    rw [(hcb w).1, (hcb w).2]
    rfl
  have howners : ∀ f, NotMain f → owners cfg (initial C cfg) f = ref (mSchedulerFiber cfg (initial C cfg)) f := by
    intro f hf
    have hself : ((initial C cfg).fib f).self = none := by
      cases f with
      | main w => exact absurd rfl (hf w)
      | sched | idle w | task n => rfl
    unfold owners
    simp only [hheld, hself, Finset.sum_const_zero, ref_none]
    simp [initial, Sched.initial, queued]
  refine ⟨⟨?_, ?_, fun f _ hd => by cases hd⟩, fun w => CbOk.of_none (hcb w).1⟩
  · intro f hf
    rw [howners f hf]
    unfold mSchedulerFiber
    cases f with
    | main w => exact absurd rfl (hf w)
    | sched =>
      by_cases hroot : cfg.root.isSome = true
      · simp [initial, hroot, ref]
      · simp [initial, hroot]
    | idle w | task n =>
      by_cases hroot : cfg.root.isSome = true
      · simp [initial, hroot, ref]
      · simp [initial, hroot]
  · intro f hf hfresh
    cases f with
    | main w => exact absurd rfl (hf w)
    | sched => exact hfresh.elim
    | idle w | task n => rfl

end Account

/-! ## Behind `~Scheduler` -/

section Destroyed

@[simp] theorem destroyed_dropAny (s : State W E C) (o : Option (FiberId W)) :
    (s.dropAny o).destroyed = s.destroyed := by
  cases o <;> rfl

@[simp] theorem destroyed_swapIn (s : State W E C) (w : W) (g : FiberId W) (pc : Pc W) :
    (s.swapIn w g pc).destroyed = s.destroyed := by
  unfold State.swapIn
  split <;> rfl

@[simp] theorem destroyed_callYield (s : State W E C) (w : W) (x : FiberId W) (ended : Bool) :
    (s.callYield w x ended).destroyed = s.destroyed := by
  unfold State.callYield
  split <;> rfl

@[simp] theorem destroyed_yieldRunning (s : State W E C) (w : W) : (s.yieldRunning w).destroyed = s.destroyed := by
  unfold State.yieldRunning
  split
  · rfl
  · exact destroyed_callYield ..

@[simp] theorem destroyed_addTimer (s : State W E C) (w : W) : (s.addTimer w).destroyed = s.destroyed := by
  unfold State.addTimer
  split <;> rfl

@[simp] theorem destroyed_endCb (s : State W E C) (w : W) : (s.endCb w).destroyed = s.destroyed := by
  unfold State.endCb
  split
  · rfl
  · split <;> rfl

/-- Only `~Scheduler` ends the scheduler. -/
theorem destroyed_next {a : Act W E C} (ha : ∀ e, a ≠ .destroy e) : (next cfg s a).destroyed = s.destroyed := by
  cases a with
  | destroy e => exact absurd rfl (ha e)
  | newFiber c | share f | release f | enter w | top w | make w | idleInc w | idleDec w | sleep w | yield w | ret w
    | reset w => simp [next]
  | base a | getRunning w | fire e i | prologue w | lock w | check w | swap w k | unlock w | entry w | stopBack e =>
    simp only [next]
    split <;> simp
  | dispatch w | set w k | leave w | dropSelf w | last w | yswap w | stopResume e | setTerm w | idle w =>
    simp only [next, State.switchTo]
    repeat' split
    all_goals simp

end Destroyed

theorem ended_next (h : Ended cfg s) {a : Act W E C} (hu : usable s a) (hg : guard cfg s a) :
    Ended cfg (next cfg s a) := by
  intro hd w hw
  cases a with
  | destroy e =>
    have hthread : (next cfg s (.destroy e)).thread = s.thread := by
      simp only [next]
      cases mSchedulerFiber cfg s <;> rfl
    rw [hthread]
    exact hg.2.2.2 w hw
  | newFiber c | share f | release f => exact h hd w hw
  | _ =>
    rw [destroyed_next (by simp), show s.destroyed = false from hu] at hd
    cases hd

/-! ## Every run -/

variable [Fintype W]

/-- **The account is right in every reachable state.** -/
theorem life_reach (hbase : cfg.idle ≠ .token) (h : (system C cfg).Reach NoIdleTimer s) :
    Life cfg s ∧ Ended cfg s := by
  induction h using System.Reach.induct with
  | start s h₀ =>
    rw [show s = initial C cfg from h₀]
    exact ⟨life_initial cfg, fun hd => by cases hd⟩
  | step s a hr he hp ih =>
    exact ⟨life_next ih.1 (inv_reach hr) ih.2 (Sched.ok_reach (reach_base hbase hr)) he.1.2 he.2 hp,
      ended_next ih.2 he.1.2 he.2⟩

/-- **No fiber is destroyed while it has to run.** In every run of the base-class `idle()` in which no timer fires that
an idle fiber has armed, the `use_count` of a fiber of the public constructor is the number of its owners, and once it
is destroyed it was never started or is `TERM`, and no thread executes on its stack. -/
theorem destroyed_done (hbase : cfg.idle ≠ .token) (h : (system C cfg).Reach NoIdleTimer s) {f : FiberId W}
    (hf : ∀ w, f ≠ .main w) : s.refs f = owners cfg s f ∧
      (s.dead f = true → s.refs f = 0 ∧ ((s.fib f).started = false ∨ (s.fib f).mState = .term) ∧
        ∀ w, (s.thread w).stack ≠ .fiber f) := by
  obtain ⟨hlife, hend⟩ := life_reach hbase h
  have hcount := hlife.sound.count f hf
  refine ⟨hcount, fun hd => ?_⟩
  obtain ⟨hzero, hgone⟩ := hlife.sound.dead f hf hd
  refine ⟨hzero, hgone, ?_⟩
  intro w hst
  have hexec : s.exec w = some f := by
    unfold State.exec
    rw [hst]
  have hpos := owners_exec (inv_reach h) hend hexec hf
  omega

/-- A callback is scheduled, fetched and run to its end, and `cb_fiber` is destroyed with the iteration. -/
def callbackRun (w : Fin 2) (e a : Fin 3) : List (Act (Fin 2) (Fin 3) Nat) :=
  [.base (.start e), .base (.scheduleLock (.inr a) (.callback (some 7)) (-1)), .base (.wakeUp (.inr a)), .prologue w,
    .enter w, .top w, .base (.scan w), .base (.tickle w), .dispatch w, .make w, .set w .task, .swap w .task, .entry w,
    .ret w, .setTerm w, .dropSelf w, .last w, .yswap w, .unlock w, .base (.decr w), .reset w]

theorem destroyed_done_duo : ∃ s : State (Fin 2) (Fin 3) Nat, s.dead (.task 0) = true ∧ s.refs (.task 0) = 0 ∧
    ((s.fib (.task 0)).started = false ∨ (s.fib (.task 0)).mState = .term) := by
  have h : (System.exec (system Nat (Sched.duo .plain)) NoIdleTimer (initial Nat (Sched.duo .plain))
      (callbackRun 0 0 1)).isSome = true := by
    decide
  obtain ⟨-, hdone⟩ := destroyed_done (f := .task 0) (by decide) (System.reach_exec rfl h) (by simp)
  obtain ⟨hzero, hgone, -⟩ := hdone (by decide +revert)
  exact ⟨_, by decide +revert, hzero, hgone⟩

end Sylar.Fibers
