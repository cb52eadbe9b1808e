import CuteTorrent.Library.RoseTree

/-! A forest walked through a queue: a tree is taken from the front, and its children
are put at the end. What is visited is the forest, level after level. -/
namespace RoseTree
variable {α σ ε : Type*}

/-- The lists are put together place by place, and the longer one keeps its end. -/
def joinLevels : List (List α) → List (List α) → List (List α)
  | [], ls => ls
  | ks, [] => ks
  | k :: ks, l :: ls => (k ++ l) :: joinLevels ks ls

mutual
def levelsOf : RoseTree α → List (List (RoseTree α))
  | node a cs => [node a cs] :: levels cs
def levels : List (RoseTree α) → List (List (RoseTree α))
  | [] => []
  | t :: ts => joinLevels (levelsOf t) (levels ts)
end

def levelOrder (ts : List (RoseTree α)) : List (RoseTree α) := (levels ts).flatten

@[simp] theorem joinLevels_nil (ks : List (List α)) : joinLevels ks [] = ks := by
  cases ks with
  | nil => rfl
  | cons k ks => rfl

theorem joinLevels_assoc (js ks ls : List (List α)) :
    joinLevels (joinLevels js ks) ls = joinLevels js (joinLevels ks ls) := by
  induction js generalizing ks ls with
  | nil => rfl
  | cons j js ih =>
    cases ks with
    | nil => rfl
    | cons k ks =>
      cases ls with
      | nil => rfl
      | cons l ls => simp only [joinLevels, List.append_assoc, ih]

theorem levels_append (ts us : List (RoseTree α)) :
    levels (ts ++ us) = joinLevels (levels ts) (levels us) := by
  induction ts with
  | nil => rfl
  | cons t ts ih => rw [List.cons_append, levels, levels, ih, joinLevels_assoc]

theorem levels_eq {ts : List (RoseTree α)} (h : ts ≠ []) :
    levels ts = ts :: levels (ts.flatMap children) := by
  induction ts with
  | nil => exact absurd rfl h
  | cons t ts ih =>
    obtain ⟨a, cs⟩ := t
    rw [levels, levelsOf]
    by_cases hts : ts = []
    · subst hts
      simp [levels, children]
    · rw [ih hts, List.flatMap_cons, levels_append]
      rfl

@[simp] theorem levelOrder_nil : levelOrder ([] : List (RoseTree α)) = [] := rfl

theorem levelOrder_eq (ts : List (RoseTree α)) :
    levelOrder ts = ts ++ levelOrder (ts.flatMap children) := by
  by_cases h : ts = []
  · subst h
    rfl
  · rw [levelOrder, levels_eq h]
    rfl

theorem levelOrder_append (ts us : List (RoseTree α)) :
    levelOrder (ts ++ us) = ts ++ levelOrder (us ++ ts.flatMap children) := by
  -- one level down the same is said of the children
  induction hn : (levels (ts ++ us)).length generalizing ts us with
  | zero =>
    by_cases h : ts ++ us = []
    · obtain ⟨rfl, rfl⟩ := List.append_eq_nil_iff.mp h
      rfl
    · simp [levels_eq h] at hn
  | succ n ih =>
    have hne : ts ++ us ≠ [] := by
      intro h
      simp [h, levels] at hn
    have hbelow : (levels (ts.flatMap children ++ us.flatMap children)).length = n := by
      rw [levels_eq hne, List.flatMap_append] at hn
      exact Nat.succ.inj hn
    rw [levelOrder_eq (ts ++ us), levelOrder_eq (us ++ ts.flatMap children)]
    rw [List.flatMap_append, List.flatMap_append, ih _ _ hbelow, List.append_assoc, List.append_assoc]

theorem levelOrder_cons (t : RoseTree α) (ts : List (RoseTree α)) :
    levelOrder (t :: ts) = t :: levelOrder (ts ++ t.children) := by
  simpa using levelOrder_append [t] ts

def breadthFirst (visit : σ → RoseTree α → Except ε σ) (s : σ) : List (RoseTree α) → Except ε σ
  | [] => .ok s
  | t :: queue =>
    match visit s t with
    | .error e => .error e
    | .ok s => breadthFirst visit s (queue ++ t.children)
termination_by queue => (levelOrder queue).length
decreasing_by
  rw [levelOrder_cons]
  exact Nat.lt_succ_self _

theorem breadthFirst_eq (visit : σ → RoseTree α → Except ε σ) (s : σ) (queue : List (RoseTree α)) :
    breadthFirst visit s queue = (levelOrder queue).foldlM visit s := by
  fun_induction breadthFirst visit s queue with
  | case1 s => rfl
  | case2 s t queue e hvisit =>
    rw [levelOrder_cons, List.foldlM_cons, hvisit]
    rfl
  | case3 s t queue s' hvisit ih =>
    rw [levelOrder_cons, List.foldlM_cons, hvisit, ih]
    rfl

theorem forall_mem_levelOrder {P : RoseTree α → Prop} {ts : List (RoseTree α)}
    (h : ∀ t ∈ ts, t.Everywhere P) : ∀ t ∈ levelOrder ts, P t := by
  induction hn : (levels ts).length generalizing ts with
  | zero =>
    by_cases hts : ts = []
    · subst hts
      exact fun t ht => absurd ht List.not_mem_nil
    · simp [levels_eq hts] at hn
  | succ n ih =>
    have hne : ts ≠ [] := by
      rintro rfl
      simp [levels] at hn
    have hbelow : (levels (ts.flatMap children)).length = n := by
      rw [levels_eq hne] at hn
      exact Nat.succ.inj hn
    have hchildren : ∀ c ∈ ts.flatMap children, c.Everywhere P := by
      intro c hc
      obtain ⟨t, ht, hct⟩ := List.mem_flatMap.mp hc
      obtain ⟨a, cs⟩ := t
      exact (everywhere_node.mp (h _ ht)).2 c hct
    intro t ht
    rw [levelOrder_eq] at ht
    cases List.mem_append.mp ht with
    | inl hown => exact h t hown [] t rfl
    | inr hdeep => exact ih hchildren hbelow t hdeep

theorem filter_levelOrder {p : RoseTree α → Bool} {ts : List (RoseTree α)}
    (htop : ∀ t ∈ ts, p t = false)
    (hdeep : ∀ t ∈ ts, ∀ c ∈ t.children, ∀ d ∈ c.children, d.Everywhere fun u => p u = false) :
    (levelOrder ts).filter p = ts.flatMap fun t => t.children.filter p := by
  have hnone : (levelOrder ((ts.flatMap children).flatMap children)).filter p = [] := by
    rw [List.filter_eq_nil_iff]
    intro t ht
    have hnot := forall_mem_levelOrder (P := fun u => p u = false) ?_ t ht
    · simp [hnot]
    · intro d hd
      obtain ⟨c, hc, hdc⟩ := List.mem_flatMap.mp hd
      obtain ⟨t, ht, hct⟩ := List.mem_flatMap.mp hc
      exact hdeep t ht c hct d hdc
  have hfirst : ts.filter p = [] := by
    rw [List.filter_eq_nil_iff]
    intro t ht
    simp [htop t ht]
  rw [levelOrder_eq, levelOrder_eq (ts.flatMap children), List.filter_append, List.filter_append]
  rw [hfirst, hnone, List.nil_append, List.append_nil, List.filter_flatMap]

end RoseTree
