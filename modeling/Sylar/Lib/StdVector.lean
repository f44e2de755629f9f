import Mathlib.Data.List.Basic

/-!
# Vectors and their iterators

`std::vector` with what the standard says of its iterators: `push_back` on a full vector moves the elements to a new
buffer and invalidates all iterators, `erase` invalidates those at and behind the erased position. The vector keeps a
history of its erasures, an iterator the length of that history when it was issued; no operation reads either
(`StdVector.Valid`).

- `isEnd_erase`: where an iterator stands behind the erasure of its element;
- `buffer_edits`: the buffer is the old one exactly if no edit reallocated;
- `valid_edits`: an iterator survives a list of edits exactly if none reallocated and none erased at or before it.
-/

/-- Elements, capacity, the identity of the buffer, and the positions of the erasures so far. -/
structure StdVector (α : Type) where
  elems : List α
  capacity : Nat
  le_capacity : elems.length ≤ capacity
  buffer : Nat
  erased : List Nat

namespace StdVector

variable {α : Type}

/-- A growth policy: the new capacity of a vector that is full. -/
structure Growth where
  grow : Nat → Nat
  lt_grow : ∀ n, n < grow n

/-- A vector without a buffer. -/
def empty (α : Type) : StdVector α := ⟨[], 0, Nat.le_refl 0, 0, []⟩

/-- An iterator: a buffer and a position in it. -/
structure Iter where
  buffer : Nat
  pos : Nat
  stamp : Nat
deriving DecidableEq, Repr

/-- `begin()`. -/
def begin (v : StdVector α) : Iter := ⟨v.buffer, 0, v.erased.length⟩

/-- `it++`: what it yields counts as issued now. -/
def succ (v : StdVector α) (it : Iter) : Iter := ⟨it.buffer, it.pos + 1, v.erased.length⟩

/-- `it == end()`: the comparison is defined on the positions alone, and so is its answer for a stale iterator. -/
def isEnd (v : StdVector α) (it : Iter) : Bool := it.buffer == v.buffer && it.pos == v.elems.length

/-- The iterator may be used: its buffer is the current one and nothing was erased at or before its position. -/
def Valid (v : StdVector α) (it : Iter) : Prop :=
  it.buffer = v.buffer ∧ ∀ i ∈ v.erased.drop it.stamp, it.pos < i

instance (v : StdVector α) (it : Iter) : Decidable (v.Valid it) :=
  inferInstanceAs (Decidable (_ ∧ _))

/-- The iterator was issued by this vector. -/
def Issued (v : StdVector α) (it : Iter) : Prop := it.buffer ≤ v.buffer ∧ it.stamp ≤ v.erased.length

/-- `*it`, if the iterator may be dereferenced. -/
def deref (v : StdVector α) (it : Iter) : Option α := if v.Valid it then v.elems[it.pos]? else none

theorem begin_valid (v : StdVector α) : v.Valid v.begin := ⟨rfl, by simp [begin]⟩

theorem begin_issued (v : StdVector α) : v.Issued v.begin := ⟨Nat.le_refl _, Nat.le_refl _⟩

theorem Valid.succ {v : StdVector α} {it : Iter} (h : v.Valid it) : v.Valid (v.succ it) :=
  ⟨h.1, by simp [StdVector.succ]⟩

/-! ## Edits -/

/-- `push_back(a)` and `erase(begin() + i)`. -/
inductive Edit (α : Type) where
  | push (a : α)
  | erase (i : Nat)
deriving DecidableEq, Repr

variable (G : Growth)

/-- `push_back`. -/
def push (v : StdVector α) (a : α) : StdVector α :=
  if h : v.elems.length < v.capacity then
    { v with elems := v.elems ++ [a], le_capacity := by rw [List.length_append]; exact h }
  else
    { v with
      elems := v.elems ++ [a]
      capacity := G.grow v.elems.length
      le_capacity := by rw [List.length_append]; exact G.lt_grow v.elems.length
      buffer := v.buffer + 1 }

/-- `erase(begin() + i)`. -/
def erase (v : StdVector α) (i : Nat) : StdVector α :=
  { v with
    elems := v.elems.eraseIdx i
    le_capacity := Nat.le_trans (List.length_eraseIdx_le ..) v.le_capacity
    erased := v.erased ++ [i] }

def edit (v : StdVector α) : Edit α → StdVector α
  | .push a => v.push G a
  | .erase i => v.erase i

def edits (v : StdVector α) (l : List (Edit α)) : StdVector α := l.foldl (edit G) v

/-- The edit moves the elements to a new buffer. -/
def reallocates (v : StdVector α) : Edit α → Bool
  | .push _ => v.elems.length == v.capacity
  | .erase _ => false

/-- The edit erases an element at or before `pos`. -/
def erasesUpTo (pos : Nat) (_ : StdVector α) : Edit α → Bool
  | .push _ => false
  | .erase i => decide (i ≤ pos)

/-- Some edit of the list has the property where it happens. -/
def happens (p : StdVector α → Edit α → Bool) : StdVector α → List (Edit α) → Bool
  | _, [] => false
  | v, e :: l => p v e || happens p (v.edit G e) l

variable {G} {v : StdVector α} {it : Iter}

theorem edits_cons {e : Edit α} {l : List (Edit α)} : v.edits G (e :: l) = (v.edit G e).edits G l := rfl

theorem edits_append {l l' : List (Edit α)} : v.edits G (l ++ l') = (v.edits G l).edits G l' :=
  List.foldl_append ..

theorem happens_append {p : StdVector α → Edit α → Bool} : ∀ {l : List (Edit α)} {v : StdVector α} {l' : List (Edit α)},
    happens G p v (l ++ l') = (happens G p v l || happens G p (v.edits G l) l')
  | [], v, l' => rfl
  | e :: l, v, l' => by
    rw [List.cons_append, happens, happens, happens_append, edits_cons, Bool.or_assoc]

@[simp] theorem elems_push {a : α} : (v.push G a).elems = v.elems ++ [a] := by
  unfold push
  split <;> rfl

@[simp] theorem elems_erase {i : Nat} : (v.erase i).elems = v.elems.eraseIdx i := rfl

theorem erased_push {a : α} : (v.push G a).erased = v.erased := by
  unfold push
  split <;> rfl

/-- An iterator is not moved by `erase`: behind it, it is at the end if nothing was behind it. -/
theorem isEnd_erase {p l : List α} {a : α} (hv : v.elems = p ++ a :: l) (hpos : it.pos = p.length)
    (hbuf : it.buffer = v.buffer) : (v.erase it.pos).elems = p ++ l ∧ (v.erase it.pos).isEnd it = l.isEmpty := by
  have helems : (v.erase it.pos).elems = p ++ l := by
    rw [elems_erase, hv, hpos, List.eraseIdx_append_of_length_le (Nat.le_refl _)]
    simp
  refine ⟨helems, ?_⟩
  rw [isEnd, helems]
  simp only [show it.buffer = (v.erase it.pos).buffer from hbuf, beq_self_eq_true, Bool.true_and, hpos]
  cases l <;> simp

/-- The buffer after an edit. -/
theorem buffer_edit {e : Edit α} :
    (v.edit G e).buffer = if v.reallocates e then v.buffer + 1 else v.buffer := by
  cases e with
  | erase i => rfl
  | push a =>
    have hle := v.le_capacity
    simp only [edit, push, reallocates, beq_iff_eq]
    split_ifs with h₁ h₂ h₂
    · omega
    · rfl
    · rfl
    · omega

theorem buffer_le_edits : ∀ {l : List (Edit α)} {v : StdVector α}, v.buffer ≤ (v.edits G l).buffer
  | [], v => Nat.le_refl _
  | e :: l, v => by
    have h : v.buffer ≤ (v.edit G e).buffer := by rw [buffer_edit]; split <;> omega
    exact Nat.le_trans h buffer_le_edits

/-- **Reallocation.** The buffer is the old one exactly if no edit reallocated. -/
theorem buffer_edits : ∀ {l : List (Edit α)} {v : StdVector α},
    (v.edits G l).buffer = v.buffer ↔ happens G reallocates v l = false
  | [], v => by simp [edits, happens]
  | e :: l, v => by
    rw [edits_cons, happens, Bool.or_eq_false_iff, ← buffer_edits]
    have hle := buffer_le_edits (G := G) (l := l) (v := v.edit G e)
    rw [buffer_edit] at hle ⊢
    cases hr : v.reallocates e with
    | false => simp
    | true =>
      simp only [hr, if_true] at hle ⊢
      constructor
      · intro h; omega
      · rintro ⟨h, -⟩; cases h

theorem Issued.edit (h : v.Issued it) (e : Edit α) : (v.edit G e).Issued it := by
  constructor
  · have hb := h.1
    rw [buffer_edit]
    split <;> omega
  · cases e with
    | push a => exact Nat.le_trans h.2 (Nat.le_of_eq (by rw [StdVector.edit, erased_push]))
    | erase i => exact Nat.le_trans h.2 (by simp [StdVector.edit, erase])

/-- One edit and one iterator. -/
theorem valid_edit (h : v.Issued it) {e : Edit α} :
    (v.edit G e).Valid it ↔ v.Valid it ∧ v.reallocates e = false ∧ v.erasesUpTo it.pos e = false := by
  obtain ⟨hbuf, hstamp⟩ := h
  cases e with
  | push a =>
    have hb := buffer_edit (G := G) (v := v) (e := .push a)
    simp only [Valid, edit, erased_push, erasesUpTo] at hb ⊢
    rw [hb]
    cases hr : v.reallocates (.push a) with
    | false => simp
    | true =>
      simp only [if_true, Bool.true_eq_false, false_and, and_false, iff_false, not_and]
      intro h
      omega
  | erase i =>
    simp only [Valid, edit, erase, reallocates, erasesUpTo, List.drop_append_of_le_length hstamp, List.mem_append,
      List.mem_singleton, decide_eq_false_iff_not, Nat.not_le, true_and]
    constructor
    · rintro ⟨hb, hall⟩
      exact ⟨⟨hb, fun j hj => hall j (Or.inl hj)⟩, hall i (Or.inr rfl)⟩
    · rintro ⟨⟨hb, hall⟩, hi⟩
      refine ⟨hb, fun j hj => ?_⟩
      rcases hj with hj | rfl
      · exact hall j hj
      · exact hi

/-- **Invalidation.** An iterator survives a list of edits exactly if none reallocated and none erased at or before its
position. -/
theorem valid_edits : ∀ {l : List (Edit α)} {v : StdVector α}, v.Issued it → ((v.edits G l).Valid it ↔
    v.Valid it ∧ happens G reallocates v l = false ∧ happens G (erasesUpTo it.pos) v l = false)
  | [], v, _ => by simp [edits, happens]
  | e :: l, v, h => by
    rw [edits_cons, valid_edits (h.edit e), valid_edit h, happens, happens, Bool.or_eq_false_iff, Bool.or_eq_false_iff]
    constructor
    · rintro ⟨⟨hv, hr, he⟩, hrs, hes⟩
      exact ⟨hv, ⟨hr, hrs⟩, he, hes⟩
    · rintro ⟨hv, ⟨hr, hrs⟩, he, hes⟩
      exact ⟨⟨hv, hr, he⟩, hrs, hes⟩

end StdVector
