import Mathlib.Data.List.Nodup
import Mathlib.Data.List.Sort

/-! Ordered association lists, one entry per key. An entry is replaced in
place, a new one goes in front of the first larger key. The lookup laws need no
order laws; only the sortedness lemmas assume a linear order. -/
namespace Assoc
variable {κ ν : Type*}

def keys (m : List (κ × ν)) : List κ := m.map Prod.fst

@[simp] theorem keys_nil : keys ([] : List (κ × ν)) = [] := rfl

@[simp] theorem keys_cons (p : κ × ν) (m : List (κ × ν)) : keys (p :: m) = p.1 :: keys m := rfl

@[simp] theorem length_keys (m : List (κ × ν)) : (keys m).length = m.length := by
  simp [keys]

variable [DecidableEq κ]

def find (k : κ) : List (κ × ν) → Option ν
  | [] => none
  | (j, v) :: m => if j = k then some v else find k m

def contains (k : κ) (m : List (κ × ν)) : Bool := (find k m).isSome

def erase (k : κ) (m : List (κ × ν)) : List (κ × ν) := m.filter fun p => decide (p.1 ≠ k)

def modify (k : κ) (f : ν → ν) (m : List (κ × ν)) : List (κ × ν) :=
  m.map fun p => if p.1 = k then (p.1, f p.2) else p

@[simp] theorem find_nil (k : κ) : find k ([] : List (κ × ν)) = none := rfl

theorem find_cons (k : κ) (p : κ × ν) (m : List (κ × ν)) :
    find k (p :: m) = if p.1 = k then some p.2 else find k m := rfl

theorem find_isSome (k : κ) (m : List (κ × ν)) : (find k m).isSome ↔ k ∈ keys m := by
  induction m with
  | nil => simp
  | cons p m ih =>
    by_cases h : p.1 = k
    · simp [find_cons, h]
    · simp [find_cons, h, Ne.symm h, ih]

theorem contains_iff (k : κ) (m : List (κ × ν)) : contains k m = true ↔ k ∈ keys m :=
  find_isSome k m

theorem find_eq_none (k : κ) (m : List (κ × ν)) : find k m = none ↔ k ∉ keys m := by
  rw [← find_isSome, Option.not_isSome_iff_eq_none]

theorem mem_of_find {k : κ} {v : ν} {m : List (κ × ν)} (h : find k m = some v) : (k, v) ∈ m := by
  induction m with
  | nil => exact absurd h (by simp)
  | cons p m ih =>
    rw [find_cons] at h
    split_ifs at h with hk
    · rw [← hk, ← Option.some.inj h]
      exact List.mem_cons_self
    · exact List.mem_cons_of_mem _ (ih h)

theorem find_of_mem {k : κ} {v : ν} {m : List (κ × ν)} (hn : (keys m).Nodup) (h : (k, v) ∈ m) :
    find k m = some v := by
  induction m with
  | nil => exact absurd h List.not_mem_nil
  | cons p m ih =>
    rw [keys_cons, List.nodup_cons] at hn
    cases List.mem_cons.mp h with
    | inl heq =>
      subst heq
      exact if_pos rfl
    | inr h =>
      have hk : k ∈ keys m := List.mem_map_of_mem h
      have hne : p.1 ≠ k := fun he => hn.1 (he ▸ hk)
      rw [find_cons, if_neg hne]
      exact ih hn.2 h

theorem find_map {ν' : Type*} (f : ν → ν') (k : κ) (m : List (κ × ν)) :
    find k (m.map fun e => (e.1, f e.2)) = (find k m).map f := by
  induction m with
  | nil => rfl
  | cons p m ih =>
    rw [List.map_cons, find_cons, find_cons, ih]
    split_ifs <;> rfl

theorem find_append (k : κ) (m n : List (κ × ν)) : find k (m ++ n) = (find k m).or (find k n) := by
  induction m with
  | nil => rfl
  | cons p m ih =>
    rw [List.cons_append, find_cons, find_cons, ih]
    split_ifs <;> rfl

theorem find_eq_some_of_forall {k : κ} {v : ν} {m : List (κ × ν)} (hmem : k ∈ keys m)
    (hall : ∀ p ∈ m, p.1 = k → p.2 = v) : find k m = some v := by
  obtain ⟨w, hw⟩ := Option.isSome_iff_exists.mp ((find_isSome k m).mpr hmem)
  rw [hw]
  exact congrArg some (hall _ (mem_of_find hw) rfl)

theorem find_erase (j k : κ) (m : List (κ × ν)) :
    find j (erase k m) = if j = k then none else find j m := by
  induction m with
  | nil => simp [erase]
  | cons p m ih =>
    unfold erase at ih ⊢
    by_cases hk : p.1 = k
    · simp only [List.filter_cons, hk, ne_eq, not_true_eq_false, decide_false,
        Bool.false_eq_true, if_false, ih, find_cons]
      by_cases hj : j = k
      · simp [hj]
      · simp [hj, Ne.symm hj]
    · simp only [List.filter_cons, ne_eq, hk, not_false_eq_true, decide_true, if_true,
        find_cons, ih]
      by_cases hj : p.1 = j
      · simp [hj, show j ≠ k from fun h => hk (hj.trans h)]
      · simp [hj]

theorem mem_keys_erase (j k : κ) (m : List (κ × ν)) :
    j ∈ keys (erase k m) ↔ j ∈ keys m ∧ j ≠ k := by
  rw [← find_isSome, find_erase, ← find_isSome]
  by_cases h : j = k <;> simp [h]

theorem keys_erase (k : κ) (m : List (κ × ν)) :
    keys (erase k m) = (keys m).filter fun j => decide (j ≠ k) := by
  simp only [keys, erase, List.filter_map]
  rfl

theorem erase_of_not_mem {k : κ} {m : List (κ × ν)} (h : k ∉ keys m) : erase k m = m := by
  apply List.filter_eq_self.mpr
  intro p hp
  have hne : p.1 ≠ k := fun he => h (he ▸ List.mem_map_of_mem hp)
  simpa using hne

@[simp] theorem keys_modify (k : κ) (f : ν → ν) (m : List (κ × ν)) :
    keys (modify k f m) = keys m := by
  simp only [keys, modify, List.map_map]
  apply List.map_congr_left
  intro p _
  by_cases h : p.1 = k <;> simp [h]

theorem find_modify (j k : κ) (f : ν → ν) (m : List (κ × ν)) :
    find j (modify k f m) = if j = k then (find j m).map f else find j m := by
  induction m with
  | nil => simp [modify]
  | cons p m ih =>
    simp only [modify, List.map_cons] at ih ⊢
    by_cases hk : p.1 = k
    · by_cases hj : p.1 = j
      · simp [find_cons, hk, hj.symm.trans hk]
      · simp [find_cons, hk, show ¬k = j from fun h => hj (hk.trans h), ih]
    · by_cases hj : p.1 = j
      · simp [find_cons, hj, show ¬j = k from fun h => hk (hj.trans h)]
      · simp [find_cons, hk, hj, ih]

section insertion
variable [LT κ] [DecidableLT κ]

def insert (k : κ) (v : ν) : List (κ × ν) → List (κ × ν)
  | [] => [(k, v)]
  | (j, w) :: m =>
    if j = k then (k, v) :: m
    else if k < j then (k, v) :: (j, w) :: m
    else (j, w) :: insert k v m

theorem find_insert (j k : κ) (v : ν) (m : List (κ × ν)) :
    find j (insert k v m) = if j = k then some v else find j m := by
  induction m with
  | nil => simp [insert, find_cons, eq_comm]
  | cons p m ih =>
    obtain ⟨i, w⟩ := p
    by_cases hik : i = k
    · by_cases hj : j = k
      · simp [insert, find_cons, hik, hj]
      · simp [insert, find_cons, hik, hj, Ne.symm hj]
    · by_cases hlt : k < i
      · by_cases hj : j = k
        · simp [insert, find_cons, hik, hlt, hj]
        · simp [insert, find_cons, hik, hlt, hj, Ne.symm hj]
      · simp only [insert, if_neg hik, if_neg hlt, find_cons, ih]
        by_cases hij : i = j
        · simp [hij, show j ≠ k from fun h => hik (hij.trans h)]
        · simp [hij]

@[simp] theorem find_insert_self (k : κ) (v : ν) (m : List (κ × ν)) :
    find k (insert k v m) = some v := by
  simp [find_insert]

theorem find_insert_of_ne {j k : κ} (h : j ≠ k) (v : ν) (m : List (κ × ν)) :
    find j (insert k v m) = find j m := by
  simp [find_insert, h]

theorem find_foldl_insert (k : κ) (l m : List (κ × ν)) :
    find k (l.foldl (fun m p => insert p.1 p.2 m) m) = (find k l.reverse).or (find k m) := by
  induction l generalizing m with
  | nil => rfl
  | cons p l ih =>
    rw [List.foldl_cons, ih, find_insert, List.reverse_cons, find_append, find_cons]
    by_cases hk : k = p.1
    · simp [hk]
    · simp [hk, Ne.symm hk]

theorem find_foldl_insert_nil (k : κ) (l : List (κ × ν)) :
    find k (l.foldl (fun m p => insert p.1 p.2 m) []) = find k l.reverse := by
  rw [find_foldl_insert, find_nil, Option.or_none]

theorem mem_keys_insert (j k : κ) (v : ν) (m : List (κ × ν)) :
    j ∈ keys (insert k v m) ↔ j = k ∨ j ∈ keys m := by
  rw [← find_isSome, find_insert, ← find_isSome]
  by_cases h : j = k <;> simp [h]

theorem mem_insert {k : κ} {v : ν} {m : List (κ × ν)} {q : κ × ν} (h : q ∈ insert k v m) :
    q = (k, v) ∨ q ∈ m := by
  induction m with
  | nil => exact Or.inl (List.mem_singleton.mp h)
  | cons p m ih =>
    obtain ⟨i, w⟩ := p
    by_cases hik : i = k
    · rw [insert, if_pos hik] at h
      exact (List.mem_cons.mp h).imp_right (List.mem_cons_of_mem _)
    · by_cases hlt : k < i
      · rw [insert, if_neg hik, if_pos hlt] at h
        exact List.mem_cons.mp h
      · rw [insert, if_neg hik, if_neg hlt] at h
        cases List.mem_cons.mp h with
        | inl h => exact Or.inr (by simp [h])
        | inr h => exact (ih h).imp_right (List.mem_cons_of_mem _)

theorem pairwise_insert (hasymm : ∀ i j : κ, i < j → ¬ j < i)
    (htrans : ∀ i j k : κ, i < j → j < k → i < k) {m : List (κ × ν)}
    (h : (keys m).Pairwise fun i j => i ≠ j ∧ ¬ j < i) (k : κ) (v : ν) :
    (keys (insert k v m)).Pairwise fun i j => i ≠ j ∧ ¬ j < i := by
  induction m with
  | nil => simp [insert]
  | cons p m ih =>
    obtain ⟨i, w⟩ := p
    rw [keys_cons, List.pairwise_cons] at h
    by_cases hik : i = k
    · rw [insert, if_pos hik, keys_cons, ← hik, List.pairwise_cons]
      exact h
    · by_cases hlt : k < i
      · rw [insert, if_neg hik, if_pos hlt, keys_cons, keys_cons, List.pairwise_cons,
          List.pairwise_cons]
        refine ⟨?_, h⟩
        intro j hj
        cases List.mem_cons.mp hj with
        | inl heq =>
          subst heq
          exact ⟨Ne.symm hik, hasymm _ _ hlt⟩
        | inr hj =>
          have hij := h.1 j hj
          refine ⟨?_, fun hjk => hij.2 (htrans _ _ _ hjk hlt)⟩
          rintro rfl
          exact hij.2 hlt
      · rw [insert, if_neg hik, if_neg hlt, keys_cons, List.pairwise_cons]
        refine ⟨?_, ih h.2⟩
        intro j hj
        cases (mem_keys_insert _ _ _ _).mp hj with
        | inl heq =>
          subst heq
          exact ⟨hik, hlt⟩
        | inr hj => exact h.1 j hj

theorem insert_perm {k : κ} {m : List (κ × ν)} (h : k ∉ keys m) (v : ν) :
    (insert k v m).Perm ((k, v) :: m) := by
  induction m with
  | nil => exact List.Perm.refl _
  | cons p m ih =>
    obtain ⟨i, w⟩ := p
    have hi : i ≠ k := fun he => h (by simp [he])
    have hm : k ∉ keys m := fun hk => h (by simp [hk])
    by_cases hlt : k < i
    · simp [insert, hi, hlt]
    · simp only [insert, if_neg hi, if_neg hlt]
      exact ((ih hm).cons (i, w)).trans (List.Perm.swap (k, v) (i, w) m)

theorem keys_insert_perm {k : κ} {m : List (κ × ν)} (h : k ∉ keys m) (v : ν) :
    (keys (insert k v m)).Perm (k :: keys m) := (insert_perm h v).map Prod.fst

theorem insert_of_forall_not_lt {k : κ} {m : List (κ × ν)} (h : ∀ i ∈ keys m, i ≠ k ∧ ¬ k < i)
    (v : ν) : insert k v m = m ++ [(k, v)] := by
  induction m with
  | nil => rfl
  | cons p m ih =>
    obtain ⟨hne, hlt⟩ := h p.1 List.mem_cons_self
    rw [insert, if_neg hne, if_neg hlt, ih fun i hi => h i (List.mem_cons_of_mem _ hi)]
    rfl

theorem foldl_insert_of_pairwise {l m : List (κ × ν)}
    (h : (keys (m ++ l)).Pairwise fun i j => i ≠ j ∧ ¬ j < i) :
    l.foldl (fun m p => insert p.1 p.2 m) m = m ++ l := by
  induction l generalizing m with
  | nil => simp
  | cons p l ih =>
    have hsplit : m ++ p :: l = (m ++ [p]) ++ l := by simp
    have hbefore : ∀ i ∈ keys m, i ≠ p.1 ∧ ¬ p.1 < i := by
      intro i hi
      rw [keys, List.map_append, List.pairwise_append] at h
      exact h.2.2 i hi p.1 List.mem_cons_self
    rw [hsplit] at h ⊢
    rw [List.foldl_cons, insert_of_forall_not_lt hbefore]
    exact ih h

theorem foldl_insert_perm {l m : List (κ × ν)} (h : (keys (l ++ m)).Nodup) :
    (l.foldl (fun m p => insert p.1 p.2 m) m).Perm (l ++ m) := by
  induction l generalizing m with
  | nil => exact List.Perm.refl _
  | cons p l ih =>
    obtain ⟨hp, hrest⟩ := List.nodup_cons.mp h
    have hm : p.1 ∉ keys m := by
      intro hmem
      obtain ⟨q, hq, hkey⟩ := List.mem_map.mp hmem
      exact hp (List.mem_map.mpr ⟨q, List.mem_append_right l hq, hkey⟩)
    have hperm : (l ++ insert p.1 p.2 m).Perm (p :: (l ++ m)) :=
      ((insert_perm hm p.2).append_left l).trans List.perm_middle
    rw [List.foldl_cons]
    exact (ih ((hperm.map Prod.fst).nodup_iff.mpr h)).trans hperm

end insertion

/-- Under a total order the lookups determine the list. -/
theorem eq_of_find_eq [LT κ] (htotal : ∀ i j : κ, ¬ i < j → ¬ j < i → i = j) {m m' : List (κ × ν)}
    (h : (keys m).Pairwise fun i j => i ≠ j ∧ ¬ j < i)
    (h' : (keys m').Pairwise fun i j => i ≠ j ∧ ¬ j < i) (hfind : ∀ k, find k m = find k m') :
    m = m' := by
  have hkeys : ∀ k, k ∈ keys m ↔ k ∈ keys m' := by
    intro k
    rw [← find_isSome, ← find_isSome, hfind]
  induction m generalizing m' with
  | nil =>
    cases m' with
    | nil => rfl
    | cons q ms' => exact absurd ((hkeys q.1).mpr (by simp)) (by simp)
  | cons p ms ih =>
    cases m' with
    | nil => exact absurd ((hkeys p.1).mp (by simp)) (by simp)
    | cons q ms' =>
      rw [keys_cons, List.pairwise_cons] at h h'
      have hpq : p.1 = q.1 := by
        by_contra hne
        have hp := (List.mem_cons.mp ((hkeys p.1).mp (by simp))).resolve_left hne
        have hq := (List.mem_cons.mp ((hkeys q.1).mpr (by simp))).resolve_left (Ne.symm hne)
        exact hne (htotal _ _ (h'.1 _ hp).2 (h.1 _ hq).2)
      have hv : p.2 = q.2 := by
        have hhead := hfind p.1
        rw [find_cons, find_cons, if_pos rfl, if_pos hpq.symm] at hhead
        exact Option.some.inj hhead
      have hrest : ∀ k, find k ms = find k ms' := by
        intro k
        by_cases hk : p.1 = k
        · have hms : k ∉ keys ms := fun hm => (h.1 k hm).1 hk
          have hms' : k ∉ keys ms' := fun hm => (h'.1 k hm).1 (hpq.symm.trans hk)
          rw [(find_eq_none k ms).mpr hms, (find_eq_none k ms').mpr hms']
        · have hhead := hfind k
          rw [find_cons, find_cons, if_neg hk, if_neg (hpq ▸ hk)] at hhead
          exact hhead
      rw [Prod.ext hpq hv, ih h.2 h'.2 hrest]
      intro k
      rw [← find_isSome, ← find_isSome, hrest]

end Assoc
