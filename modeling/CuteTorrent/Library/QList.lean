import Mathlib.Data.List.Basic

/-! The memory of a list in use from `start` up to `stop`. An iterator is an index
into that memory; it stays where it is when an element is erased. -/
structure QListData (α : Type*) where
  array : Nat → α
  start : Nat
  stop : Nat
  start_le : start ≤ stop

namespace QListData
variable {α : Type*}

def slice (array : Nat → α) (i n : Nat) : List α := (List.range' i n).map array

def before (l : QListData α) (i : Nat) : List α := slice l.array l.start (i - l.start)

def after (l : QListData α) (i : Nat) : List α := slice l.array i (l.stop - i)

def toList (l : QListData α) : List α := slice l.array l.start (l.stop - l.start)

def ofList [Inhabited α] (l : List α) : QListData α where
  array := fun k => l.getD k default
  start := 0
  stop := l.length
  start_le := Nat.zero_le _

/-- The elements in front move up by one when they are fewer than those from the
iterator on, else the elements behind move down. -/
def erase (l : QListData α) (i : Nat) (h : l.start ≤ i ∧ i < l.stop) : QListData α :=
  if i - l.start < l.stop - i then
    { array := fun k => if l.start < k ∧ k ≤ i then l.array (k - 1) else l.array k
      start := l.start + 1
      stop := l.stop
      start_le := by omega }
  else
    { array := fun k => if i ≤ k ∧ k + 1 < l.stop then l.array (k + 1) else l.array k
      start := l.start
      stop := l.stop - 1
      start_le := by omega }

/-! ### Stretches of the memory -/

@[simp] theorem length_slice (array : Nat → α) (i n : Nat) : (slice array i n).length = n := by
  simp [slice]

@[simp] theorem slice_zero (array : Nat → α) (i : Nat) : slice array i 0 = [] := rfl

theorem slice_succ (array : Nat → α) (i n : Nat) :
    slice array i (n + 1) = array i :: slice array (i + 1) n := rfl

theorem slice_add (array : Nat → α) (i m n : Nat) :
    slice array i (m + n) = slice array i m ++ slice array (i + m) n := by
  induction m generalizing i with
  | zero => simp
  | succ m ih =>
    rw [show m + 1 + n = m + n + 1 by omega, slice_succ, slice_succ, ih, List.cons_append,
      show i + 1 + m = i + (m + 1) by omega]

@[simp] theorem getElem_slice (array : Nat → α) (i n j : Nat) (h : j < (slice array i n).length) :
    (slice array i n)[j] = array (i + j) := by
  simp [slice]

theorem slice_congr {array array' : Nat → α} {i i' n : Nat}
    (h : ∀ k < n, array (i + k) = array' (i' + k)) : slice array i n = slice array' i' n := by
  induction n generalizing i i' with
  | zero => rfl
  | succ n ih =>
    have hhead : array i = array' i' := h 0 (Nat.succ_pos n)
    have htail : ∀ k < n, array (i + 1 + k) = array' (i' + 1 + k) := by
      intro k hk
      have hnext := h (k + 1) (by omega)
      rwa [← Nat.add_assoc, ← Nat.add_assoc, Nat.add_right_comm, Nat.add_right_comm i'] at hnext
    rw [slice_succ, slice_succ, hhead, ih htail]

@[simp] theorem toList_ofList [Inhabited α] (l : List α) : (ofList l).toList = l := by
  apply List.ext_getElem
  · simp [toList, ofList]
  · intro k _ hk
    simp [toList, ofList, hk]

section
variable {l : QListData α} {i : Nat}

@[simp] theorem length_before (l : QListData α) (i : Nat) : (l.before i).length = i - l.start :=
  length_slice _ _ _

@[simp] theorem length_after (l : QListData α) (i : Nat) : (l.after i).length = l.stop - i :=
  length_slice _ _ _

theorem before_start (l : QListData α) : l.before l.start = [] := by simp [before]

theorem after_start (l : QListData α) : l.after l.start = l.toList := rfl

theorem before_stop (l : QListData α) : l.before l.stop = l.toList := rfl

theorem after_stop (l : QListData α) : l.after l.stop = [] := by simp [after]

theorem after_of_lt (h : i < l.stop) : l.after i = l.array i :: l.after (i + 1) := by
  rw [after, show l.stop - i = l.stop - (i + 1) + 1 by omega, slice_succ]
  rfl

theorem before_succ (h : l.start ≤ i) : l.before (i + 1) = l.before i ++ [l.array i] := by
  rw [before, show i + 1 - l.start = i - l.start + 1 by omega, slice_add,
    show l.start + (i - l.start) = i by omega]
  rfl

/-! ### What an iterator sees after an element is erased -/

theorem start_erase_front (h : l.start ≤ i ∧ i < l.stop) (hfront : i - l.start < l.stop - i) :
    (l.erase i h).start = l.start + 1 := by rw [erase, if_pos hfront]

theorem stop_erase_front (h : l.start ≤ i ∧ i < l.stop) (hfront : i - l.start < l.stop - i) :
    (l.erase i h).stop = l.stop := by rw [erase, if_pos hfront]

theorem start_erase_back (h : l.start ≤ i ∧ i < l.stop) (hback : ¬ i - l.start < l.stop - i) :
    (l.erase i h).start = l.start := by rw [erase, if_neg hback]

theorem stop_erase_back (h : l.start ≤ i ∧ i < l.stop) (hback : ¬ i - l.start < l.stop - i) :
    (l.erase i h).stop = l.stop - 1 := by rw [erase, if_neg hback]

theorem erase_front_le {k : Nat} (h : l.start ≤ k ∧ k < l.stop) (hk : k ≤ i)
    (hfront : k - l.start < l.stop - k) :
    (l.erase k h).before (i + 1) = (l.before (i + 1)).eraseIdx (k - l.start) ∧
      (l.erase k h).after (i + 1) = l.after (i + 1) := by
  constructor
  · apply List.ext_getElem
    · rw [length_before, start_erase_front h hfront, List.length_eraseIdx, length_before]
      split_ifs <;> omega
    · intro j hj _
      rw [length_before, start_erase_front h hfront] at hj
      rw [List.getElem_eraseIdx]
      simp only [before, getElem_slice, erase, if_pos hfront]
      split_ifs <;> first | omega | (congr 1; omega)
  · rw [after, stop_erase_front h hfront, after]
    apply slice_congr
    intro j hj
    have hout : ¬ (l.start < i + 1 + j ∧ i + 1 + j ≤ k) := by omega
    simp only [erase, if_pos hfront, if_neg hout]

theorem erase_back_le {k : Nat} (h : l.start ≤ k ∧ k < l.stop) (hk : k ≤ i) (hi : i < l.stop)
    (hback : ¬ k - l.start < l.stop - k) :
    (l.erase k h).before i = (l.before (i + 1)).eraseIdx (k - l.start) ∧
      (l.erase k h).after i = l.after (i + 1) := by
  constructor
  · apply List.ext_getElem
    · rw [length_before, start_erase_back h hback, List.length_eraseIdx, length_before]
      split_ifs <;> omega
    · intro j hj _
      rw [length_before, start_erase_back h hback] at hj
      rw [List.getElem_eraseIdx]
      simp only [before, getElem_slice, erase, if_neg hback]
      split_ifs <;> first | omega | rfl
  · rw [after, stop_erase_back h hback, after, show l.stop - 1 - i = l.stop - (i + 1) by omega]
    apply slice_congr
    intro j hj
    have hin : k ≤ i + j ∧ i + j + 1 < l.stop := by omega
    simp only [erase, if_neg hback, if_pos hin]
    congr 1
    omega

theorem eraseIdx_before_succ (h : l.start ≤ i) :
    (l.before (i + 1)).eraseIdx (i - l.start) = l.before i := by
  rw [before_succ h, List.eraseIdx_append_of_length_le (Nat.le_of_eq (length_before l i)), length_before,
    Nat.sub_self, List.eraseIdx_cons_zero, List.append_nil]

/-- With the front moved up, the next place holds the next element. -/
theorem erase_front (h : l.start ≤ i ∧ i < l.stop) (hfront : i - l.start < l.stop - i) :
    (l.erase i h).before (i + 1) = l.before i ∧ (l.erase i h).after (i + 1) = l.after (i + 1) := by
  rw [← eraseIdx_before_succ h.1]
  exact erase_front_le h (Nat.le_refl i) hfront

/-- With the rest moved down, the same place holds the next element. -/
theorem erase_back (h : l.start ≤ i ∧ i < l.stop) (hback : ¬ i - l.start < l.stop - i) :
    (l.erase i h).before i = l.before i ∧ (l.erase i h).after i = l.after (i + 1) := by
  rw [← eraseIdx_before_succ h.1]
  exact erase_back_le h (Nat.le_refl i) h.2 hback

theorem toList_eq (h : l.start ≤ i ∧ i ≤ l.stop) : l.toList = l.before i ++ l.after i := by
  rw [toList, show l.stop - l.start = i - l.start + (l.stop - i) by omega, slice_add,
    show l.start + (i - l.start) = i by omega]
  rfl

end

/-! ### Erasing by value -/

section removeOne
variable [BEq α] [LawfulBEq α]

theorem idxOf_lt_stop {l : QListData α} {a : α} (h : a ∈ l.toList) :
    l.start ≤ l.start + l.toList.idxOf a ∧ l.start + l.toList.idxOf a < l.stop := by
  have hlt := List.idxOf_lt_length_of_mem h
  rw [toList, length_slice] at hlt
  have hle := l.start_le
  exact ⟨Nat.le_add_right _ _, by rw [toList]; omega⟩

def removeOne (l : QListData α) (a : α) : QListData α :=
  if h : a ∈ l.toList then l.erase (l.start + l.toList.idxOf a) (idxOf_lt_stop h) else l

variable {l : QListData α} {i : Nat}

/-- The element at an iterator is erased by value: either the place of the first equal
element is nearer the front, and the iterator leaves what follows for its next step, or
the rest moves down under the iterator. -/
theorem removeOne_at (h : l.start ≤ i ∧ i < l.stop) :
    (2 * (l.before (i + 1)).idxOf (l.array i) < l.stop - l.start ∧
      (l.removeOne (l.array i)).start = l.start + 1 ∧ (l.removeOne (l.array i)).stop = l.stop ∧
      (l.removeOne (l.array i)).before (i + 1) = (l.before (i + 1)).erase (l.array i) ∧
      (l.removeOne (l.array i)).after (i + 1) = l.after (i + 1)) ∨
    (¬ 2 * (l.before (i + 1)).idxOf (l.array i) < l.stop - l.start ∧
      (l.removeOne (l.array i)).start = l.start ∧
      (l.removeOne (l.array i)).stop = l.stop - 1 ∧
      (l.removeOne (l.array i)).before i = (l.before (i + 1)).erase (l.array i) ∧
      (l.removeOne (l.array i)).after i = l.after (i + 1)) := by
  have hbefore : l.array i ∈ l.before (i + 1) := by
    rw [before_succ h.1]
    exact List.mem_append_right _ (List.mem_singleton_self _)
  have hsplit : l.toList = l.before (i + 1) ++ l.after (i + 1) := toList_eq ⟨by omega, h.2⟩
  have hmem : l.array i ∈ l.toList := hsplit ▸ List.mem_append_left _ hbefore
  have hidx : l.toList.idxOf (l.array i) = (l.before (i + 1)).idxOf (l.array i) := by
    rw [hsplit, List.idxOf_append, if_pos hbefore]
  have hle : (l.before (i + 1)).idxOf (l.array i) ≤ i - l.start := by
    have hlt := List.idxOf_lt_length_of_mem hbefore
    rw [length_before] at hlt
    omega
  have hplace := idxOf_lt_stop hmem
  have herase : (l.before (i + 1)).erase (l.array i) =
      (l.before (i + 1)).eraseIdx ((l.before (i + 1)).idxOf (l.array i)) :=
    List.erase_eq_eraseIdx_of_idxOf rfl
  rw [removeOne, dif_pos hmem, herase]
  by_cases hside : l.start + l.toList.idxOf (l.array i) - l.start <
      l.stop - (l.start + l.toList.idxOf (l.array i))
  · obtain ⟨hb, ha⟩ := erase_front_le (i := i) hplace (by omega) hside
    refine .inl ⟨by omega, start_erase_front _ hside, stop_erase_front _ hside, ?_, ha⟩
    rw [hb, ← hidx, Nat.add_sub_cancel_left]
  · obtain ⟨hb, ha⟩ := erase_back_le (i := i) hplace (by omega) h.2 hside
    refine .inr ⟨by omega, start_erase_back _ hside, stop_erase_back _ hside, ?_, ha⟩
    rw [hb, ← hidx, Nat.add_sub_cancel_left]

end removeOne
end QListData
