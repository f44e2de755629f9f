import Sylar.Hook.Nonblock

/-!
# The flags that a user sees

Of what a user asks for, `F_SETFL` keeps the mode in the context and passes the other flags on, `FIONBIO` keeps the mode
and passes it on. `F_GETFL` puts the two together again, whatever the mode of the system is.

- `Shows`: what a managed socket shows: the mode that was asked for last, and the other flags of the last `F_SETFL`;
- `shows_next`: one successful call; `shows_last`: a sequence of them;
- `user_view`: what `F_GETFL` returns behind a sequence.
-/

namespace Sylar.Calls

open Trans Hook

variable {env : Env} {w w' : World} {es : Events} {r : Ret} {fd : Int}

/-! ## What is asked for -/

/-- The mode that a call asks for. -/
def Control.nonblock : Control → Bool
  | .setfl arg => Calls.nonblock arg
  | .fionbio _ value => value != 0#32

/-- The flags that a call passes. -/
def Control.flags : Control → Option (BitVec 32)
  | .setfl arg => some arg
  | .fionbio _ _ => none

/-- The argument of the last `F_SETFL` of a sequence, if there is one, or else `last`. -/
def lastSetfl (last : Option (BitVec 32)) (ks : List Control) : Option (BitVec 32) :=
  ks.foldl (fun last k => k.flags.or last) last

/-- The flags are the same, up to `O_NONBLOCK`. -/
def SameOthers (v v' : BitVec 32) : Prop := v &&& ~~~oNonblock = v' &&& ~~~oNonblock

theorem others_withNonblock (b : Bool) (v : BitVec 32) : SameOthers (withNonblock b v) v := by
  unfold SameOthers
  cases b with
  | true =>
    refine BitVec.eq_of_getLsbD_eq fun i hi => ?_
    simp only [withNonblock, if_true, BitVec.getLsbD_and, BitVec.getLsbD_or, BitVec.getLsbD_not]
    cases oNonblock.getLsbD i <;> simp
  | false => simp [withNonblock, BitVec.and_assoc]

theorem others_fionbio (value v : BitVec 32) : SameOthers (fionbio value v) v := by
  have h : fionbio value v = withNonblock (value != 0#32) v := by
    unfold fionbio withNonblock
    by_cases hz : value = 0#32 <;> simp [hz]
  rw [h]
  exact others_withNonblock _ v

/-! ## What is shown -/

/-- A managed socket keeps the mode `b`, if any was asked for, and the kernel the other flags of `arg`, if any were. -/
structure Shows (w : World) (fd : Int) (b : Option Bool) (arg : Option (BitVec 32)) : Prop where
  mode : ∃ c, w.socket fd = some c ∧ ∀ x ∈ b, (w.ctx c).userNonblock = x
  flags : ∃ v, w.flags fd = some v ∧ ∀ x ∈ arg, SameOthers v x

theorem socket_kernel {c : Call} : (w.kernel env c r).socket fd = w.socket fd := by
  unfold World.socket
  rw [kernel_reg, kernel_ctx]

/-- `setUserNonblock` on the context of a managed socket. -/
theorem setUser_socket {v : Bool} {c : Nat} (hc : w.socket fd = some c) :
    (w.setUser fd v).socket fd = some c ∧ ((w.setUser fd v).ctx c).userNonblock = v := by
  obtain ⟨hreg, hso⟩ := Option.filter_eq_some_iff.mp hc
  unfold World.setUser
  rw [hc]
  refine ⟨Option.filter_eq_some_iff.mpr ⟨hreg, ?_⟩, ?_⟩
  · simpa [World.setCtx, FdCtx.setUserNonblock] using hso
  · simp [World.setCtx, FdCtx.setUserNonblock]

/-- **One successful call.** -/
theorem shows_next {b : Option Bool} {arg : Option (BitVec 32)} {k : Control} {hook : Bool} {fuel : Nat}
    (hs : Shows w fd b arg) (h : Run (sem env) w (hooked hook fuel (k.call fd)) es w' r) (hr : r.n ≠ -1) :
    Shows w' fd (some k.nonblock) (k.flags.or arg) := by
  obtain ⟨c, hc, -⟩ := hs.mode
  obtain ⟨v, hv, harg⟩ := hs.flags
  cases k with
  | setfl x =>
    obtain ⟨o, -, -, rfl, rfl⟩ := (once_setfl ..).only _ _ _ h
    obtain ⟨hsock, hmode⟩ := setUser_socket (v := Calls.nonblock x) hc
    refine ⟨⟨c, socket_kernel.trans hsock, ?_⟩, w.setflArg fd x, ?_, ?_⟩
    · rintro _ ⟨⟩
      rw [kernel_ctx]
      exact hmode
    · simp [World.kernel, hr, hv]
    · rintro _ ⟨⟩
      simp only [World.setflArg, hc]
      exact others_withNonblock _ _
  | fionbio p value =>
    obtain ⟨o, -, -, rfl, rfl⟩ := (once_fionbio ..).only _ _ _ h
    obtain ⟨hsock, hmode⟩ := setUser_socket (v := value != 0#32) hc
    refine ⟨⟨c, socket_kernel.trans hsock, ?_⟩, fionbio value v, ?_, ?_⟩
    · rintro _ ⟨⟩
      rw [kernel_ctx]
      exact hmode
    · simp [World.kernel, hr, hv]
    · intro x hx
      exact (others_fionbio value v).trans (harg x hx)

/-- **A sequence of successful calls.** -/
theorem shows_last {ks : List (Control × World)} (h : Controls env fd w ks) :
    ∀ {b : Option Bool} {arg : Option (BitVec 32)}, Shows w fd b arg → ∀ p ∈ ks.getLast?,
      Shows p.2 fd (some p.1.nonblock) (lastSetfl arg (ks.map Prod.fst)) := by
  induction h with
  | nil w =>
    intro b arg _ p hp
    cases hp
  | @cons w w' k ks hook fuel es r hrun hr htail ih =>
    intro b arg hs p hp
    have hnext := shows_next hs hrun hr
    cases ks with
    | nil =>
      obtain rfl := Option.some.inj hp
      exact hnext
    | cons q ks => exact ih hnext p hp

/-- The kernel answers `F_GETFL` with the flags that it has stored. -/
def Stored (w : World) (fd : Int) (es : Events) : Prop := ∀ p ∈ originals es, (w.flags fd).map BitVec.toInt = some p.2.n

/-- **The user sees the flags that the user has set**: behind a sequence of successful calls with an `F_SETFL`, whatever
the mode of the system is, `F_GETFL` comes back, and returns the mode that was asked for last and the other flags of the
last `F_SETFL`. -/
theorem user_view (env : Env) (w : World) (fd : Int) {c : Nat} {ks : List (Control × World)} {k : Control} {w' : World}
    {arg : BitVec 32} (hc : w.socket fd = some c) (hopen : (w.flags fd).isSome = true) (h : Controls env fd w ks)
    (hlast : ks.getLast? = some (k, w')) (harg : lastSetfl none (ks.map Prod.fst) = some arg) :
    ∃ v : BitVec 32, nonblock v = k.nonblock ∧ SameOthers v arg ∧ ∀ hook fuel extra,
      (∃ es r, Run (sem env) w' (hooked hook fuel (.fcntl fd (.getfl extra))) es w' r ∧ Stored w' fd es ∧
        r.n = v.toInt) ∧
      ∀ es w'' r, Run (sem env) w' (hooked hook fuel (.fcntl fd (.getfl extra))) es w'' r → Stored w' fd es →
        r.n = v.toInt := by
  obtain ⟨v₀, hv₀⟩ := Option.isSome_iff_exists.mp hopen
  have hstart : Shows w fd none none := ⟨⟨c, hc, by simp⟩, v₀, hv₀, by simp⟩
  obtain ⟨⟨c', hc', hmode⟩, v, hv, hothers⟩ := shows_last h hstart (k, w') hlast
  have hmode : (w'.ctx c').userNonblock = k.nonblock := hmode _ rfl
  have hret : ∀ o : Ret, v.toInt = o.n → (w'.getflRet fd o).n = (withNonblock k.nonblock v).toInt := by
    intro o ho
    have hof : BitVec.ofInt 32 o.n = v := by
      rw [← ho]
      exact BitVec.ofInt_toInt
    simp only [World.getflRet, hc', hof, hmode]
  refine ⟨withNonblock k.nonblock v, nonblock_withNonblock, (others_withNonblock _ _).trans (hothers arg harg),
    fun hook fuel extra => ?_⟩
  have hcall : Once env w' (hooked hook fuel (.fcntl fd (.getfl extra))) (.fcntl fd (.getfl none)) (fun _ => w')
      (w'.getflRet fd) :=
    once_getfl extra
  refine ⟨?_, fun es w'' r hrun hstored => ?_⟩
  · -- the kernel can answer what it has stored
    have hanswer : w'.Returns (.fcntl fd (.getfl none)) ⟨v.toInt, .eintr⟩ :=
      Or.inr (by rw [hv]; rfl)
    obtain ⟨es, hes, hrun⟩ := hcall.returns _ hanswer
    refine ⟨es, _, hrun, ?_, hret _ rfl⟩
    intro p hp
    obtain rfl := List.mem_singleton.mp (hes ▸ hp)
    rw [hv]
    rfl
  · obtain ⟨o, -, hes, -, rfl⟩ := hcall.only _ _ _ hrun
    have ho := hstored (_, o) (by rw [hes]; exact List.mem_singleton_self _)
    rw [hv] at ho
    exact hret o (Option.some.inj ho)

/-- `F_SETFL` with `O_NONBLOCK` and `O_APPEND`, then `FIONBIO` with `0`, on a socket that the system holds
non-blocking. -/
theorem user_view_mixed : ∃ ks : List (Control × World), ∃ w',
    ks.map Prod.fst = [.setfl 3074#32, .fionbio 0 0#32] ∧ ∃ v : BitVec 32, nonblock v = false ∧ SameOthers v 3074#32 ∧
      ∃ es r, Run (sem Env.sockets) w' (hooked true 0 (.fcntl 5 (.getfl none))) es w' r ∧ r.n = v.toInt := by
  obtain ⟨ks, hks, h⟩ := exists_controls Env.sockets 5 [.setfl 3074#32, .fionbio 0 0#32] World.oneSocket
  have hlast : (ks.map Prod.fst).getLast? = some (.fionbio 0 0#32) := by rw [hks]; rfl
  rw [List.getLast?_map] at hlast
  obtain ⟨⟨k, w'⟩, hp, rfl⟩ := Option.map_eq_some_iff.mp hlast
  have harg : lastSetfl none (ks.map Prod.fst) = some 3074#32 := by rw [hks]; rfl
  obtain ⟨v, hmode, hothers, hget⟩ := user_view Env.sockets World.oneSocket 5 rfl rfl h hp harg
  obtain ⟨⟨es, r, hrun, -, hr⟩, -⟩ := hget true 0 none
  exact ⟨ks, w', hks, v, hmode, hothers, es, r, hrun, hr⟩

end Sylar.Calls
