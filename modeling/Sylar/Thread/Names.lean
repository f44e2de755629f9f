import Sylar.Thread.Current

/-!
# The names of threads

A thread's name is in three places: in the member `_name`, in the thread-local `cur_thread_name`, and in the kernel. The
constructor gives it, the child passes it on, and `setRunningThreadName` changes two of the three.

- `Act.names`, `Act.gives`: the steps that name a thread or give it its callback;
- `Handed`, `handed_own`: what a thread has of what it was given;
- `names_kept`: what the names are behind any run.
-/

namespace Sylar.Current

open Trans

variable {C : Type} {tid : Nat → Int} {s : State C} {i : Nat}

/-- The name that a step gives to the `i`-th thread. -/
def Act.names (i : Nat) : Act C → Option Name
  | .construct j _ name | .setRunningThreadName j name => if j = i then some name else none
  | _ => none

/-- The callback that the constructor of the `i`-th thread is given. -/
def Act.gives (i : Nat) : Act C → Option C
  | .construct j callback _ => if j = i then callback else none
  | _ => none

namespace ChildPc

/-- The child has set `cur_thread_name`. -/
def named : ChildPc → Bool
  | .unborn | .current | .name => false
  | _ => true

/-- The child has stored its id. -/
def stored : ChildPc → Bool
  | .unborn | .current | .name | .setId => false
  | _ => true

/-- The child has set its name in the kernel. -/
def osNamed : ChildPc → Bool
  | .unborn | .current | .name | .setId | .osName => false
  | _ => true

/-- The child has taken the callback. -/
def swapped : ChildPc → Bool
  | .signal | .call | .body | .done => true
  | _ => false

end ChildPc

/-- What a thread that has been given the names `ns`, and the callback of `cs`, has of them. -/
structure Handed (tid : Nat → Int) (i : Nat) (ns : List Name) (cs : List C) (t : Thread C) (x : Child C) : Prop where
  fresh : t.call = .fresh → ns = [] ∧ cs = []
  given : t.call ≠ .fresh → ns ≠ []
  member : t.name = ns.getLast?.getD []
  current : x.curThreadName = if x.pc.named then t.name else unknown
  single : x.pc.osNamed = false → ns.length ≤ 1
  kernel : x.osName = if x.pc.osNamed then cStr ((ns.head?.getD []).take 15) else []
  id : x.pc.stored = true → t.id = tid i
  callback : (if x.pc.swapped then x.callback else t.mCallback) = cs.head?
  other : (if x.pc.swapped then t.mCallback else x.callback) = none

/-! ## One step -/

/-- The thread whose object or child moves. -/
def Act.on : Act C → Nat
  | .construct i _ _ | .create i _ | .wait i _ | .join i | .joined i _ | .detach i | .destroy i | .setCurrent i
  | .setName i | .setId i | .setOsName i | .swap i | .signal i _ | .invoke i | .setRunningThreadName i _ | .ret i => i

/-- In its callback a child's `cur_thread` is its own object. -/
theorem Inv.own (h : Inv s) (hpc : (s.child i).pc = .body) : (s.child i).curThread = some i := by
  rw [(h i).current, hpc]
  rfl

/-- A step leaves the other threads alone. -/
theorem next_other (tid : Nat → Int) (h : Inv s) {a : Act C} (hg : guard s a) (hne : i ≠ a.on) :
    ((next tid s a).obj i = s.obj i ∧ (next tid s a).child i = s.child i) ∧
      a.names i = none ∧ a.gives i = none := by
  cases a with
  | construct j cb name =>
    have hij : i ≠ j := hne
    simp [next, Act.names, Act.gives, hij, hij.symm]
  | create j ok =>
    have hij : i ≠ j := hne
    simp only [next]
    split <;> simp [Act.names, Act.gives, hij]
  | invoke j =>
    have hij : i ≠ j := hne
    simp only [next]
    split <;> simp [Act.names, Act.gives, hij]
  | setRunningThreadName j name =>
    have hij : i ≠ j := hne
    simp [next, h.own hg, Act.names, Act.gives, hij, hij.symm]
  | wait j a | join j | joined j ok | detach j | destroy j | setCurrent j | setName j | setId j | setOsName j | swap j
  | signal j notified | ret j =>
    have hij : i ≠ j := hne
    simp [next, Act.names, Act.gives, hij]

/-- The call on an object goes on, and nothing else. -/
theorem Handed.moved {ns : List Name} {cs : List C} {t u : Thread C} {x y : Child C} (h : Handed tid i ns cs t x)
    (hf : t.call ≠ .fresh) (hf' : u.call ≠ .fresh) (hname : u.name = t.name) (hid : u.id = t.id)
    (hcb : u.mCallback = t.mCallback) (hpc : y.pc = x.pc) (hlocal : y.curThreadName = x.curThreadName)
    (hos : y.osName = x.osName) (hx : y.callback = x.callback) : Handed tid i ns cs u y := by
  refine ⟨fun hn => absurd hn hf', fun _ => h.given hf, hname.trans h.member, ?_, ?_, ?_, ?_, ?_, ?_⟩
  · rw [hlocal, hpc, hname]
    exact h.current
  · rw [hpc]
    exact h.single
  · rw [hos, hpc]
    exact h.kernel
  · rw [hpc, hid]
    exact h.id
  · rw [hpc, hx, hcb]
    exact h.callback
  · rw [hpc, hx, hcb]
    exact h.other

theorem head_eq_getLast {ns : List Name} (h : ns.length ≤ 1) : ns.head? = ns.getLast? := by
  match ns, h with
  | [], _ => rfl
  | [_], _ => rfl

/-- **A thread has what it was given**, behind a step of its own. -/
theorem handed_own {ns : List Name} {cs : List C} (hs : Inv s) {a : Act C} (hg : guard s a) (hon : a.on = i)
    (h : Handed tid i ns cs (s.obj i) (s.child i)) :
    Handed tid i (ns ++ (a.names i).toList) (cs ++ (a.gives i).toList) ((next tid s a).obj i)
      ((next tid s a).child i) := by
  have hborn : ∀ {pc}, (s.child i).pc = pc → pc ≠ .unborn → (s.obj i).call ≠ .fresh := by
    rintro pc rfl hne hcall
    exact hne ((hs i).born.2 (by rw [hcall]; rfl))
  cases a with
  | construct j cb name =>
    obtain rfl : j = i := hon
    have hcall : (s.obj j).call = .fresh := hg
    have hpc := (hs j).born.2 (by rw [hcall]; rfl)
    obtain ⟨rfl, rfl⟩ := h.fresh hcall
    have hcur := h.current
    have hos := h.kernel
    have hother := h.other
    rw [hpc] at hcur hos hother
    refine ⟨?_, ?_, ?_, ?_, ?_, ?_, ?_, ?_, ?_⟩ <;>
      simp_all [next, Act.names, Act.gives, ChildPc.named, ChildPc.osNamed, ChildPc.stored, ChildPc.swapped]
  | create j ok =>
    obtain rfl : j = i := hon
    have hcall : (s.obj j).call = .create := hg
    have hpc := (hs j).born.2 (by rw [hcall]; rfl)
    have hsingle := h.single (by rw [hpc]; rfl)
    have hcallback := h.callback
    rw [hpc] at hcallback
    cases ok with
    | false =>
      have hmoved := h.moved (u := { s.obj j with call := .failed }) (by simp [hcall]) (by simp) rfl rfl rfl rfl rfl
        rfl rfl
      simpa [next, Act.names, Act.gives] using hmoved
    | true =>
      have hgiven := h.given (by simp [hcall])
      have hmember := h.member
      refine ⟨?_, ?_, ?_, ?_, ?_, ?_, ?_, ?_, ?_⟩ <;>
        simp_all [next, Act.names, Act.gives, Child.fresh, ChildPc.named, ChildPc.osNamed, ChildPc.stored,
          ChildPc.swapped]
  | wait j a =>
    obtain rfl : j = i := hon
    have hmoved := h.moved (u := { s.obj j with
      semaphore := Semaphore.next (s.obj j).semaphore a
      call := if (Semaphore.next (s.obj j).semaphore a).pc .parent = .out then .ready else .wait })
      (by simp [hg.1]) (by dsimp only; split <;> simp) rfl rfl rfl rfl rfl rfl rfl
    simpa [next, Act.names, Act.gives] using hmoved
  | join j =>
    obtain rfl : j = i := hon
    have hcall : (s.obj j).call = .ready := hg
    have hmoved := h.moved (u := { s.obj j with call := if (s.obj j).thread then .join else .ready })
      (by simp [hcall]) (by dsimp only; split <;> simp) rfl rfl rfl rfl rfl rfl rfl
    simpa [next, Act.names, Act.gives] using hmoved
  | joined j ok =>
    obtain rfl : j = i := hon
    have hmoved := h.moved (u := { s.obj j with
      thread := if ok then false else (s.obj j).thread
      call := .ready }) (by simp [hg.1]) (by simp) rfl rfl rfl rfl rfl rfl rfl
    simpa [next, Act.names, Act.gives] using hmoved
  | detach j =>
    obtain rfl : j = i := hon
    have hcall : (s.obj j).call = .ready := hg
    have hmoved := h.moved (u := { s.obj j with thread := false, call := .leave })
      (y := { s.child j with detached := (s.obj j).thread || (s.child j).detached }) (by simp [hcall]) (by simp) rfl
      rfl rfl rfl rfl rfl rfl
    simpa [next, Act.names, Act.gives] using hmoved
  | destroy j =>
    obtain rfl : j = i := hon
    have hcall : (s.obj j).call = .leave := hg
    have hmoved := h.moved (u := { s.obj j with call := .gone }) (by simp [hcall]) (by simp) rfl rfl rfl rfl rfl rfl
      rfl
    simpa [next, Act.names, Act.gives] using hmoved
  | setOsName j =>
    obtain rfl : j = i := hon
    have hpc : (s.child j).pc = .osName := hg
    have hcall := hborn hpc (by simp)
    obtain ⟨-, hgiven, hmember, hcurrent, hsingle, hkernel, hid, hcallback, hother⟩ := h
    rw [hpc] at hcurrent hsingle hkernel hid hcallback hother
    have hfirst := head_eq_getLast (hsingle rfl)
    refine ⟨?_, ?_, ?_, ?_, ?_, ?_, ?_, ?_, ?_⟩ <;>
      simp_all [next, Act.names, Act.gives, ChildPc.named, ChildPc.osNamed, ChildPc.stored, ChildPc.swapped]
  | setCurrent j | setName j | setId j | swap j | ret j =>
    obtain rfl : j = i := hon
    have hpc : (s.child j).pc = _ := hg
    have hcall := hborn hpc (by simp)
    obtain ⟨-, hgiven, hmember, hcurrent, hsingle, hkernel, hid, hcallback, hother⟩ := h
    rw [hpc] at hcurrent hsingle hkernel hid hcallback hother
    refine ⟨?_, ?_, ?_, ?_, ?_, ?_, ?_, ?_, ?_⟩ <;>
      simp_all [next, Act.names, Act.gives, ChildPc.named, ChildPc.osNamed, ChildPc.stored, ChildPc.swapped]
  | signal j notified =>
    obtain rfl : j = i := hon
    have hpc := hg.1
    have hcall := hborn hpc (by simp)
    obtain ⟨-, hgiven, hmember, hcurrent, hsingle, hkernel, hid, hcallback, hother⟩ := h
    rw [hpc] at hcurrent hsingle hkernel hid hcallback hother
    refine ⟨?_, ?_, ?_, ?_, ?_, ?_, ?_, ?_, ?_⟩ <;>
      simp_all [next, Act.names, Act.gives, ChildPc.named, ChildPc.osNamed, ChildPc.stored, ChildPc.swapped]
  | invoke j =>
    obtain rfl : j = i := hon
    have hpc : (s.child j).pc = .call := hg
    cases hcb : (s.child j).callback with
    | none => simpa [next, hcb, Act.names, Act.gives] using h
    | some c =>
      have hcall := hborn hpc (by simp)
      have hnext : next tid s (.invoke j) = s.set j (s.obj j) { s.child j with pc := .body } := by simp [next, hcb]
      rw [hnext]
      obtain ⟨-, hgiven, hmember, hcurrent, hsingle, hkernel, hid, hcallback, hother⟩ := h
      rw [hpc] at hcurrent hsingle hkernel hid hcallback hother
      refine ⟨?_, ?_, ?_, ?_, ?_, ?_, ?_, ?_, ?_⟩ <;>
        simp_all [Act.names, Act.gives, ChildPc.named, ChildPc.osNamed, ChildPc.stored, ChildPc.swapped]
  | setRunningThreadName j name =>
    obtain rfl : j = i := hon
    have hpc : (s.child j).pc = .body := hg
    have hcall := hborn hpc (by simp)
    obtain ⟨-, hgiven, -, -, -, hkernel, hid, hcallback, hother⟩ := h
    rw [hpc] at hkernel hid hcallback hother
    have hfirst : (ns ++ [name]).head? = ns.head? := by
      cases ns with
      | nil => exact absurd rfl (hgiven hcall)
      | cons n ns => rfl
    have hown := hs.own hpc
    refine ⟨?_, ?_, ?_, ?_, ?_, ?_, ?_, ?_, ?_⟩ <;>
      simp_all [next, Act.names, Act.gives, ChildPc.named, ChildPc.osNamed, ChildPc.stored, ChildPc.swapped]

/-! ## Whole runs -/

theorem handed_initial (tid : Nat → Int) (i : Nat) :
    Handed tid i [] [] ((initial C).obj i) ((initial C).child i) := by
  refine ⟨fun _ => ⟨rfl, rfl⟩, fun hn => absurd rfl hn, rfl, rfl, fun _ => Nat.zero_le 1, rfl, fun hn => ?_, rfl, rfl⟩
  cases hn

theorem filterMap_snoc {α β : Type} (f : α → Option β) (as : List α) (a : α) :
    (as ++ [a]).filterMap f = as.filterMap f ++ (f a).toList := by
  rw [List.filterMap_append]
  rfl

/-- **The run lemma.** -/
theorem handed_run {P : State C → Act C → Prop} {s₀ t : State C} {as : List (Act C)} (h₀ : (system C tid).init s₀)
    (h : (system C tid).Steps P s₀ as t) (i : Nat) :
    Handed tid i (as.filterMap (Act.names i)) (as.filterMap (Act.gives i)) (t.obj i) (t.child i) := by
  have hrun := h.history (I := fun bs s => Inv s ∧
    Handed tid i (bs.filterMap (Act.names i)) (bs.filterMap (Act.gives i)) (s.obj i) (s.child i)) ?_ [] ?_
  · exact hrun.2
  · rintro bs s a ⟨hs, hh⟩ he -
    refine ⟨inv_next hs he.2, ?_⟩
    rw [filterMap_snoc, filterMap_snoc]
    by_cases hon : a.on = i
    · exact handed_own hs he.2 hon hh
    · obtain ⟨⟨hobj, hchild⟩, hnames, hgives⟩ := next_other tid hs he.2 (Ne.symm hon)
      simp only [system, hobj, hchild, hnames, hgives, Option.toList_none, List.append_nil]
      exact hh
  · obtain rfl : s₀ = initial C := h₀
    have hstart : (system C tid).Reach P (initial C) := .start rfl
    exact ⟨inv_reach hstart, handed_initial tid i⟩

/-- **The names of a thread.** In a run in which no object is destroyed while its child runs, a `Thread` that is there
has the last name that its constructor, or its child through `setRunningThreadName`, has given; where the child has set
`cur_thread_name` it is the same name, and the kernel has the first bytes of the first one, up to a NUL, for ever.
Behind the constructor all that is set, with the id, and the child has the callback that the constructor was given. -/
theorem names_kept {s₀ t : State C} {as : List (Act C)} (h₀ : (system C tid).init s₀)
    (h : (system C tid).Steps Late s₀ as t) (i : Nat) (halive : (t.obj i).alive = true) :
    ∃ first last, (as.filterMap (Act.names i)).head? = some first ∧ (as.filterMap (Act.names i)).getLast? = some last ∧
      (t.obj i).name = last ∧
      ((t.child i).pc.running = true →
        ((t.child i).pc.named = true → (t.child i).curThreadName = last) ∧
        ((t.child i).pc.osNamed = true → (t.child i).osName = cStr (first.take 15))) ∧
      ((t.obj i).call.returned = true → (t.obj i).id = tid i ∧ (t.child i).pc.named = true ∧
        (t.child i).pc.osNamed = true ∧ (t.child i).callback = (as.filterMap (Act.gives i)).head?) := by
  obtain ⟨-, hgiven, hmember, hcurrent, -, hkernel, hid, hcallback, -⟩ := handed_run h₀ h i
  have hne := hgiven fun hcall => by simp [Thread.alive, hcall] at halive
  obtain ⟨first, hfirst⟩ := Option.ne_none_iff_exists'.1 (mt List.head?_eq_none_iff.1 hne)
  obtain ⟨last, hlast⟩ := Option.ne_none_iff_exists'.1 (mt List.getLast?_eq_none_iff.1 hne)
  have hname : (t.obj i).name = last := by
    rw [hmember, hlast]
    rfl
  refine ⟨first, last, hfirst, hlast, hname, fun _ => ⟨fun hn => ?_, fun hn => ?_⟩, fun hr => ?_⟩
  · rw [hcurrent, if_pos hn, hname]
  · rw [hkernel, if_pos hn, hfirst]
    rfl
  · have hsignalled := (inv_reach ⟨s₀, as, h₀, h⟩ i).signalled hr
    cases hpc : (t.child i).pc with
    | call | body | done =>
      rw [hpc] at hid hcallback
      exact ⟨hid rfl, rfl, rfl, hcallback⟩
    | unborn | current | name | setId | osName | swap | signal =>
      rw [hpc] at hsignalled
      cases hsignalled

/-- The second thread's constructor returns before the first thread's child renames itself. -/
theorem names_kept_pair : ∃ t : State Nat, (system Nat Int.ofNat).Reach Late t ∧
    ((t.obj 0).name = [104] ∧ (t.child 0).curThreadName = [104] ∧ (t.child 0).osName = [119]) ∧
    (t.obj 1).name = [119] ∧ (t.child 1).curThreadName = [119] := by
  have h : (System.exec (system Nat Int.ofNat) Late (initial Nat)
      (startRun 0 ++ startRun 1 ++ [.setRunningThreadName 0 [104]])).any
        (fun s => ((s.obj 0).call == .ready && (s.child 0).pc == .body) &&
          ((s.obj 1).call == .ready && (s.child 1).pc == .body)) = true := by
    decide
  obtain ⟨t, hsteps, ht⟩ := System.exists_exec h
  simp only [Bool.and_eq_true, beq_iff_eq] at ht
  obtain ⟨⟨hcall, hpc⟩, hcall', hpc'⟩ := ht
  obtain ⟨first, last, hfirst, hlast, hname, hset, -⟩ := names_kept rfl hsteps 0 (by simp [Thread.alive, hcall])
  obtain ⟨first', last', hfirst', hlast', hname', hset', -⟩ := names_kept rfl hsteps 1 (by simp [Thread.alive, hcall'])
  obtain rfl : [119] = first := Option.some_inj.1 hfirst
  obtain rfl : [104] = last := Option.some_inj.1 hlast
  obtain rfl : [119] = last' := Option.some_inj.1 hlast'
  rw [hpc] at hset
  rw [hpc'] at hset'
  exact ⟨t, ⟨_, _, rfl, hsteps⟩, ⟨hname, (hset rfl).1 rfl, (hset rfl).2 rfl⟩, hname', (hset' rfl).1 rfl⟩

end Sylar.Current
