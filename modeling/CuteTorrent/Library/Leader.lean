import Mathlib.Data.List.Infix

/-! The value of a list with the most occurrences, the first to reach that number
when the list is read from the left. -/
namespace Leader
variable {κ : Type*} [BEq κ]

/-- No value occurs more often, and up to some point of the list every other one
occurs less often than this one does in all. -/
structure Leads (l : List κ) (k : κ) : Prop where
  count_le : ∀ j, l.count j ≤ l.count k
  first : ∃ before, before <+: l ∧ before.count k = l.count k ∧ ∀ j, j ≠ k → before.count j < l.count k

theorem Leads.unique {l : List κ} {j k : κ} (hj : Leads l j) (hk : Leads l k) : j = k := by
  have hsame : l.count j = l.count k := Nat.le_antisymm (hk.count_le j) (hj.count_le k)
  obtain ⟨before, hbefore, hreached, hother⟩ := hj.first
  obtain ⟨before', hbefore', hreached', hother'⟩ := hk.first
  by_contra hne
  rcases List.prefix_or_prefix_of_prefix hbefore hbefore' with hle | hle
  · have hlt := hother' j hne
    have hmono := hle.sublist.count_le j
    omega
  · have hlt := hother k (Ne.symm hne)
    have hmono := hle.sublist.count_le k
    omega

variable [LawfulBEq κ]

theorem Leads.of_overtakes {l : List κ} {k : κ} {n : Nat} (hle : ∀ j, l.count j ≤ n)
    (hlt : n < (l ++ [k]).count k) : Leads (l ++ [k]) k := by
  have hother : ∀ j, j ≠ k → (l ++ [k]).count j < (l ++ [k]).count k := by
    intro j hj
    have hsame : (l ++ [k]).count j = l.count j := by
      rw [List.count_append, List.count_singleton, if_neg (by simpa using hj.symm), Nat.add_zero]
    have hj := hle j
    omega
  constructor
  · intro j
    by_cases hj : j = k
    · rw [hj]
    · exact (hother j hj).le
  · exact ⟨l ++ [k], List.prefix_rfl, rfl, hother⟩

theorem Leads.append {l : List κ} {j k : κ} (h : Leads l k)
    (hle : (l ++ [j]).count j ≤ l.count k) :
    Leads (l ++ [j]) k ∧ (l ++ [j]).count k = l.count k := by
  have hk : j ≠ k := by
    rintro rfl
    rw [List.count_append, List.count_singleton_self] at hle
    omega
  have hsame : (l ++ [j]).count k = l.count k := by
    rw [List.count_append, List.count_singleton, if_neg (by simpa using hk), Nat.add_zero]
  obtain ⟨before, hbefore, hreached, hother⟩ := h.first
  refine ⟨⟨?_, ?_⟩, hsame⟩
  · intro i
    rw [hsame]
    by_cases hi : i = j
    · rw [hi]
      exact hle
    · rw [List.count_append, List.count_singleton, if_neg (by simpa using Ne.symm hi), Nat.add_zero]
      exact h.count_le i
  · rw [hsame]
    exact ⟨before, hbefore.trans (List.prefix_append l [j]), hreached, hother⟩

end Leader
