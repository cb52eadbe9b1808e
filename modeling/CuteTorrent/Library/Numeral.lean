import Mathlib.Data.Nat.Digits.Lemmas

/-! Numbers written to a base, and read again. -/
namespace Numeral
variable {α : Type*} (base : Nat)

def write (digit : Nat → α) (n : Nat) : List α :=
  if n = 0 then [digit 0] else (Nat.digits base n).reverse.map digit

def read (value : α → Option Nat) (text : List α) : Option Nat :=
  if text = [] then none
  else text.foldlM (fun n c => (value c).map fun d => base * n + d) 0

variable {base} {digit : Nat → α} {value : α → Option Nat}

theorem write_ne_nil (n : Nat) : write base digit n ≠ [] := by
  unfold write
  split_ifs with hn
  · simp
  · simpa [Nat.digits_ne_nil_iff_ne_zero] using hn

theorem mem_write (hbase : 1 < base) {n : Nat} {c : α} (h : c ∈ write base digit n) :
    ∃ d < base, c = digit d := by
  unfold write at h
  split_ifs at h
  · exact ⟨0, by omega, List.mem_singleton.mp h⟩
  · obtain ⟨d, hd, rfl⟩ := List.mem_map.mp h
    exact ⟨d, Nat.digits_lt_base hbase (List.mem_reverse.mp hd), rfl⟩

/-- The digits are folded from the most significant one on. -/
theorem foldlM_digits (hvalue : ∀ d < base, value (digit d) = some d) (ds : List Nat)
    (hds : ∀ d ∈ ds, d < base) :
    (ds.reverse.map digit).foldlM (fun n c => (value c).map fun d => base * n + d) 0 =
      some (Nat.ofDigits base ds) := by
  induction ds with
  | nil => rfl
  | cons d ds ih =>
    have hrest := ih fun e he => hds e (List.mem_cons_of_mem _ he)
    rw [List.reverse_cons, List.map_append, List.foldlM_append, hrest]
    simp [hvalue d (hds d List.mem_cons_self), Nat.ofDigits_cons, Nat.add_comm]

theorem read_write (hbase : 1 < base) (hvalue : ∀ d < base, value (digit d) = some d) (n : Nat) :
    read base value (write base digit n) = some n := by
  rw [read, if_neg (write_ne_nil n), write]
  split_ifs with hn
  · subst hn
    have hzero : value (digit 0) = some 0 := hvalue 0 (by omega)
    simp [hzero]
  · rw [foldlM_digits hvalue _ fun d hd => Nat.digits_lt_base hbase hd, Nat.ofDigits_digits]

end Numeral
