import Mathlib.Data.List.Chain
import Mathlib.Data.List.Infix
import CuteTorrent.Qt

/-! What `arg` leaves of a text with place markers in it, and where `split` cuts at
two semicolons. -/
namespace CuteTorrent

/-! ### Place markers -/

def markAt (c : Char) (s : QString) : Option (Nat × Nat) := if c = '%' then argMark s else none

theorem argMarks_drop (k : Nat) (s : QString) : argMarks k s = argMarks 0 (s.drop k) := by
  induction k generalizing s with
  | zero => rfl
  | succ k ih =>
    cases s with
    | nil => rfl
    | cons c s => exact ih s

theorem replaceMarks_drop (mark : Nat) (a : QString) (k : Nat) (s : QString) :
    replaceMarks mark a k s = replaceMarks mark a 0 (s.drop k) := by
  induction k generalizing s with
  | zero => rfl
  | succ k ih =>
    cases s with
    | nil => rfl
    | cons c s => exact ih s

theorem argMarks_plain {c : Char} {s : QString} (h : markAt c s = none) :
    argMarks 0 (c :: s) = argMarks 0 s := by
  rw [markAt] at h
  rw [argMarks, h]

theorem argMarks_mark {s : QString} {n length : Nat} (h : argMark s = some (n, length)) :
    argMarks 0 ('%' :: s) = n :: argMarks 0 (s.drop length) := by
  rw [argMarks, if_pos rfl, h]
  exact congrArg (n :: ·) (argMarks_drop length s)

section
variable {mark : Nat} {a : QString}

theorem replaceMarks_plain {c : Char} {s : QString} (h : markAt c s = none) :
    replaceMarks mark a 0 (c :: s) = c :: replaceMarks mark a 0 s := by
  rw [markAt] at h
  rw [replaceMarks, h]

theorem replaceMarks_mark {s : QString} {length : Nat} (h : argMark s = some (mark, length)) :
    replaceMarks mark a 0 ('%' :: s) = a ++ replaceMarks mark a 0 (s.drop length) := by
  rw [replaceMarks, if_pos rfl, h]
  exact (if_pos rfl).trans (congrArg (a ++ ·) (replaceMarks_drop mark a length s))

theorem replaceMarks_other {s : QString} {n length : Nat} (h : argMark s = some (n, length))
    (hne : n ≠ mark) : replaceMarks mark a 0 ('%' :: s) =
      '%' :: s.take length ++ replaceMarks mark a 0 (s.drop length) := by
  rw [replaceMarks, if_pos rfl, h]
  exact (if_neg hne).trans (congrArg ('%' :: s.take length ++ ·) (replaceMarks_drop mark a length s))

end

theorem markInduction {motive : QString → Prop} (nil : motive [])
    (plain : ∀ c s, markAt c s = none → motive s → motive (c :: s))
    (mark : ∀ s n length, argMark s = some (n, length) → motive (s.drop length) → motive ('%' :: s))
    (s : QString) : motive s := by
  induction hlength : s.length using Nat.strong_induction_on generalizing s with
  | _ k ih =>
    cases s with
    | nil => exact nil
    | cons c s =>
      have hlt : ∀ t : QString, t.length ≤ s.length → motive t := by
        refine fun t ht => ih t.length ?_ t rfl
        rw [← hlength, List.length_cons]
        omega
      cases h : markAt c s with
      | none => exact plain c s h (hlt s le_rfl)
      | some m =>
        have hc : c = '%' := by
          by_contra hne
          rw [markAt, if_neg hne] at h
          cases h
        subst hc
        exact mark s m.1 m.2 ((if_pos rfl).symm.trans h) (hlt _ (by simp))

/-- The number is one digit or two, behind the letter where it is there. -/
theorem argMark_eq (s : QString) : argMark s =
    let skip := if s.head? = some 'L' then 1 else 0
    let digits := ((s.drop skip).takeWhile Char.isDigit).take 2
    if digits = [] then none else some (decimalValue digits, skip + digits.length) := by
  have hnumber : ∀ (t : QString) (k : Nat),
      (if (t.takeWhile Char.isDigit).take 2 = [] then none
        else some (decimalValue ((t.takeWhile Char.isDigit).take 2),
          k + ((t.takeWhile Char.isDigit).take 2).length)) =
      match t with
      | [] => none
      | [a] => if a.isDigit then some (decimalValue [a], k + 1) else none
      | a :: b :: _ =>
        if !a.isDigit then none
        else if b.isDigit then some (decimalValue [a, b], k + 2)
        else some (decimalValue [a], k + 1) := by
    intro t k
    match t with
    | [] => rfl
    | [a] => cases ha : a.isDigit <;> simp [ha]
    | a :: b :: t => cases ha : a.isDigit <;> cases hb : b.isDigit <;> simp [ha, hb]
  dsimp only
  rw [hnumber, argMark]
  by_cases hL : s.head? = some 'L'
  · simp only [hL, if_true]
    rcases s.drop 1 with _ | ⟨a, _ | ⟨b, t⟩⟩ <;> rfl
  · simp only [hL, if_false, List.drop_zero]
    rcases s with _ | ⟨a, _ | ⟨b, t⟩⟩ <;> rfl

theorem argMark_text {s : QString} {n length : Nat} (h : argMark s = some (n, length)) :
    1 ≤ length ∧ length ≤ s.length ∧ ∀ c ∈ s.take length, c = 'L' ∨ c.isDigit = true := by
  rw [argMark_eq] at h
  dsimp only at h
  generalize hskip : (if s.head? = some 'L' then 1 else 0) = skip at h
  generalize hdigits : ((s.drop skip).takeWhile Char.isDigit).take 2 = digits at h
  have hpre : digits <+: s.drop skip := by
    rw [← hdigits]
    exact (List.take_prefix _ _).trans (List.takeWhile_prefix _)
  have hisDigit : ∀ c ∈ digits, c.isDigit = true := by
    intro c hc
    rw [← hdigits] at hc
    exact List.mem_takeWhile_imp (List.mem_of_mem_take hc)
  have hletter : skip ≤ s.length ∧ ∀ c ∈ s.take skip, c = 'L' := by
    rw [← hskip]
    split_ifs with hL
    · cases s with
      | nil => cases hL
      | cons c s => exact ⟨by simp, by simpa using hL⟩
    · simp
  split_ifs at h with hnil
  obtain ⟨-, rfl⟩ := Prod.mk.inj (Option.some.inj h)
  have hpos : 1 ≤ digits.length := List.length_pos_iff.mpr hnil
  have hle : digits.length ≤ s.length - skip := by simpa using hpre.length_le
  refine ⟨by omega, by omega, fun c hc => ?_⟩
  rw [List.take_add, ← List.prefix_iff_eq_take.mp hpre] at hc
  exact (List.mem_append.mp hc).imp (hletter.2 c) (hisDigit c)

theorem argMark_append (w rest : QString) : argMark (w ++ ';' :: rest) = argMark w := by
  have hdigits : ∀ t : QString,
      (t ++ ';' :: rest).takeWhile Char.isDigit = t.takeWhile Char.isDigit := by
    intro t
    induction t with
    | nil => rfl
    | cons c t ih =>
      rw [List.cons_append, List.takeWhile_cons, List.takeWhile_cons, ih]
  have hhead : (w ++ ';' :: rest).head? = some 'L' ↔ w.head? = some 'L' := by
    cases w <;> simp
  rw [argMark_eq, argMark_eq]
  dsimp only
  by_cases hL : w.head? = some 'L'
  · obtain ⟨t, rfl⟩ : ∃ t, w = 'L' :: t := by
      cases w with
      | nil => cases hL
      | cons c t => exact ⟨t, by rw [Option.some.inj hL]⟩
    rw [if_pos (hhead.mpr hL), if_pos hL, List.cons_append, List.drop_succ_cons, List.drop_zero,
      List.drop_succ_cons, List.drop_zero, hdigits]
  · rw [if_neg (fun h => hL (hhead.mp h)), if_neg hL, List.drop_zero, List.drop_zero, hdigits]

theorem markAt_append (c : Char) (w rest : QString) : markAt c (w ++ ';' :: rest) = markAt c w := by
  rw [markAt, markAt, argMark_append]

theorem argMarks_append (w rest : QString) :
    argMarks 0 (w ++ ';' :: rest) = argMarks 0 w ++ argMarks 0 rest := by
  induction w using markInduction with
  | nil => exact argMarks_plain rfl
  | plain c w h ih =>
    rw [List.cons_append, argMarks_plain ((markAt_append c w rest).trans h), argMarks_plain h, ih]
  | mark w n length h ih =>
    have hle := (argMark_text h).2.1
    rw [List.cons_append, argMarks_mark ((argMark_append w rest).trans h), argMarks_mark h,
      List.drop_append_of_le_length hle, ih, List.cons_append]

section
variable (mark : Nat) (a : QString)

theorem replaceMarks_append (w rest : QString) : replaceMarks mark a 0 (w ++ ';' :: rest) =
    replaceMarks mark a 0 w ++ ';' :: replaceMarks mark a 0 rest := by
  induction w using markInduction with
  | nil => exact replaceMarks_plain rfl
  | plain c w h ih =>
    rw [List.cons_append, replaceMarks_plain ((markAt_append c w rest).trans h),
      replaceMarks_plain h, ih, List.cons_append]
  | mark w n length h ih =>
    have hle := (argMark_text h).2.1
    by_cases hn : n = mark
    · subst hn
      rw [List.cons_append, replaceMarks_mark ((argMark_append w rest).trans h), replaceMarks_mark h,
        List.drop_append_of_le_length hle, ih, List.append_assoc]
    · rw [List.cons_append, replaceMarks_other ((argMark_append w rest).trans h) hn,
        replaceMarks_other h hn, List.drop_append_of_le_length hle,
        List.take_append_of_le_length hle, ih, List.append_assoc]

theorem replaceMarks_of_not_mem {s : QString} (h : mark ∉ argMarks 0 s) :
    replaceMarks mark a 0 s = s := by
  induction s using markInduction with
  | nil => rfl
  | plain c s hc ih =>
    rw [argMarks_plain hc] at h
    rw [replaceMarks_plain hc, ih h]
  | mark s n length hs ih =>
    rw [argMarks_mark hs, List.mem_cons, not_or] at h
    rw [replaceMarks_other hs (Ne.symm h.1), ih h.2, List.cons_append, List.take_append_drop]

theorem count_replaceMarks {c : Char} (hc : c ≠ '%' ∧ c ≠ 'L' ∧ c.isDigit = false) (s : QString) :
    (replaceMarks mark a 0 s).count c = s.count c + (argMarks 0 s).count mark * a.count c := by
  induction s using markInduction with
  | nil => simp [replaceMarks, argMarks]
  | plain d s h ih =>
    rw [replaceMarks_plain h, argMarks_plain h, List.count_cons, List.count_cons, ih]
    omega
  | mark s n length h ih =>
    have hout : (s.take length).count c = 0 := by
      refine List.count_eq_zero.mpr fun hmem => ?_
      rcases (argMark_text h).2.2 c hmem with hL | hdigit
      · exact hc.2.1 hL
      · exact absurd hdigit (by simp [hc.2.2])
    have hs : ('%' :: s).count c = (s.drop length).count c := by
      rw [List.count_cons_of_ne (Ne.symm hc.1), ← List.take_append_drop length s, List.count_append,
        hout, List.take_append_drop, Nat.zero_add]
    rw [argMarks_mark h, hs]
    by_cases hn : n = mark
    · subst hn
      rw [replaceMarks_mark h, List.count_append, ih, List.count_cons_self, Nat.succ_mul]
      omega
    · rw [replaceMarks_other h hn, List.count_append, List.count_cons_of_ne (Ne.symm hc.1), hout, ih,
        List.count_cons_of_ne hn, Nat.zero_add]

theorem length_replaceMarks_nil (s : QString) :
    (replaceMarks mark [] 0 s).length + 2 * (argMarks 0 s).count mark ≤ s.length := by
  induction s using markInduction with
  | nil => simp [replaceMarks, argMarks]
  | plain c s h ih =>
    rw [replaceMarks_plain h, argMarks_plain h, List.length_cons, List.length_cons]
    omega
  | mark s n length h ih =>
    obtain ⟨hpos, hle, -⟩ := argMark_text h
    rw [List.length_drop] at ih
    rw [argMarks_mark h]
    by_cases hn : n = mark
    · subst hn
      rw [replaceMarks_mark h, List.nil_append, List.count_cons_self, List.length_cons]
      omega
    · rw [replaceMarks_other h hn, List.count_cons_of_ne hn, List.length_append, List.length_cons,
        List.length_cons, List.length_take]
      omega

variable {mark a}

theorem head_of_agree {s x y : QString} (hmem : mark ∈ argMarks 0 s) (ha : a ≠ [])
    (h : s ++ x = replaceMarks mark a 0 s ++ y) : a.head? = some '%' := by
  induction s using markInduction with
  | nil => exact absurd hmem List.not_mem_nil
  | plain c s hc ih =>
    rw [argMarks_plain hc] at hmem
    rw [replaceMarks_plain hc] at h
    exact ih hmem (List.cons.inj h).2
  | mark s n length hs ih =>
    by_cases hn : n = mark
    · subst hn
      obtain ⟨c, t, rfl⟩ := List.exists_cons_of_ne_nil ha
      rw [replaceMarks_mark hs] at h
      exact congrArg some (List.cons.inj h).1.symm
    · rw [argMarks_mark hs, List.mem_cons] at hmem
      rw [replaceMarks_other hs hn, List.cons_append, List.cons_append, List.cons_append,
        List.append_assoc] at h
      have hrest := (List.cons.inj h).2
      nth_rewrite 1 [← List.take_append_drop length s] at hrest
      rw [List.append_assoc] at hrest
      exact ih (hmem.resolve_left (Ne.symm hn)) (List.append_cancel_left hrest)

end

/-! ### Two semicolons -/

/-- `split(";;")` leaves the text in one. -/
def Unsplit (s : QString) : Prop := ¬ [';', ';'] <:+: s

instance (s : QString) : Decidable (Unsplit s) := inferInstanceAs (Decidable (¬ _))

theorem unsplit_iff_isChain (s : QString) :
    Unsplit s ↔ s.IsChain fun a b => ¬ (a = ';' ∧ b = ';') := by
  rw [List.isChain_iff_forall_rel_of_append_cons_cons]
  constructor
  · rintro h a b l l' rfl ⟨rfl, rfl⟩
    exact h ⟨l, l', by simp⟩
  · rintro h ⟨l, l', rfl⟩
    have hpair := @h ';' ';' l l'
    simp at hpair

theorem Unsplit.part {s t : QString} (h : Unsplit t) (hpart : s <:+: t) : Unsplit s :=
  fun hsep => h (hsep.trans hpart)

theorem unsplit_cons_iff {c d : Char} {s : QString} :
    Unsplit (c :: d :: s) ↔ ¬ (c = ';' ∧ d = ';') ∧ Unsplit (d :: s) := by
  rw [unsplit_iff_isChain, unsplit_iff_isChain, List.isChain_cons_cons]

theorem isPrefixOf_semicolons {s : QString} :
    List.isPrefixOf [';', ';'] s = true ↔ ∃ rest, s = ';' :: ';' :: rest := by
  rw [List.isPrefixOf_iff_prefix]
  exact ⟨fun ⟨rest, h⟩ => ⟨rest, h.symm⟩, fun ⟨rest, h⟩ => ⟨rest, h.symm⟩⟩

theorem splitText_of_unsplit {s : QString} (h : Unsplit s) (part : QString) :
    splitText [';', ';'] 0 part s = [part ++ s] := by
  induction s generalizing part with
  | nil => simp [splitText]
  | cons c s ih =>
    have hsep : ¬ List.isPrefixOf [';', ';'] (c :: s) = true := by
      rw [isPrefixOf_semicolons]
      rintro ⟨rest, hrest⟩
      exact h ⟨[], rest, by simp [hrest]⟩
    rw [splitText, if_neg hsep, ih (h.part (List.suffix_cons c s).isInfix), List.append_assoc]
    rfl

theorem splitText_append {w : QString} (h : Unsplit (w ++ [';'])) (part rest : QString) :
    splitText [';', ';'] 0 part (w ++ ';' :: ';' :: rest) =
      (part ++ w) :: splitText [';', ';'] 0 [] rest := by
  induction w generalizing part with
  | nil =>
    rw [List.nil_append, splitText, if_pos (isPrefixOf_semicolons.mpr ⟨rest, rfl⟩), List.append_nil]
    rfl
  | cons c w ih =>
    have hsep : ¬ List.isPrefixOf [';', ';'] (c :: (w ++ ';' :: ';' :: rest)) = true := by
      rw [isPrefixOf_semicolons]
      rintro ⟨t, ht⟩
      obtain ⟨rfl, hnext⟩ := List.cons.inj ht
      cases w with
      | nil => exact h ⟨[], [], rfl⟩
      | cons d w =>
        obtain rfl : d = ';' := (List.cons.inj hnext).1
        exact h ⟨[], w ++ [';'], rfl⟩
    have hw : Unsplit (w ++ [';']) := h.part (List.suffix_cons c _).isInfix
    rw [List.cons_append, splitText, if_neg hsep, ih hw, List.append_assoc]
    rfl

theorem unsplit_or_split (s : QString) :
    Unsplit s ∨ ∃ w rest, s = w ++ ';' :: ';' :: rest ∧ Unsplit (w ++ [';']) := by
  induction s with
  | nil => exact .inl (by decide)
  | cons c s ih =>
    by_cases hsep : ∃ rest, c :: s = ';' :: ';' :: rest
    · obtain ⟨rest, hrest⟩ := hsep
      exact .inr ⟨[], rest, hrest, by decide⟩
    · have hcons : ∀ t : QString, t.head? = s.head? → Unsplit t → Unsplit (c :: t) := by
        intro t hhead ht
        cases t with
        | nil => rw [unsplit_iff_isChain]; exact List.isChain_singleton c
        | cons d t =>
          refine unsplit_cons_iff.mpr ⟨?_, ht⟩
          rintro ⟨rfl, rfl⟩
          cases s with
          | nil => cases hhead
          | cons e s =>
            obtain rfl := Option.some.inj hhead
            exact hsep ⟨s, rfl⟩
      rcases ih with h | ⟨w, rest, rfl, hw⟩
      · exact .inl (hcons s rfl h)
      · refine .inr ⟨c :: w, rest, rfl, hcons _ ?_ hw⟩
        cases w <;> rfl

theorem unsplit_of_mem_splitText {s t : QString} (h : t ∈ splitText [';', ';'] 0 [] s) :
    Unsplit t := by
  induction hlength : s.length using Nat.strong_induction_on generalizing s with
  | _ k ih =>
    rcases unsplit_or_split s with hs | ⟨w, rest, rfl, hw⟩
    · rw [splitText_of_unsplit hs, List.mem_singleton] at h
      exact h ▸ hs
    · rw [splitText_append hw, List.nil_append] at h
      rcases List.mem_cons.mp h with rfl | h
      · exact hw.part (List.prefix_append _ _).isInfix
      · refine ih rest.length ?_ h rfl
        rw [← hlength, List.length_append, List.length_cons, List.length_cons]
        omega

/-- What is put in makes no two semicolons where it neither begins nor ends with one. -/
theorem unsplit_replaceMarks {mark : Nat} {a : QString} (ha : Unsplit a)
    (hhead : a.head? = some '%') (hlast : a.getLast? = some '|') {s pre : QString}
    (h : Unsplit (pre ++ (s ++ [';']))) : Unsplit (pre ++ (replaceMarks mark a 0 s ++ [';'])) := by
  induction s using markInduction generalizing pre with
  | nil => exact h
  | plain c s hc ih =>
    rw [replaceMarks_plain hc]
    have hnext := @ih (pre ++ [c])
    simp only [List.append_assoc, List.singleton_append] at hnext
    exact hnext h
  | mark s n length hs ih =>
    by_cases hn : n = mark
    · subst hn
      rw [replaceMarks_mark hs, List.append_assoc, ← List.append_assoc]
      apply ih
      have hrest : Unsplit (s.drop length ++ [';']) := h.part
        ⟨pre ++ '%' :: s.take length, [], by
          rw [List.append_nil, List.append_assoc, List.cons_append, ← List.append_assoc (s.take length),
            List.take_append_drop, List.cons_append]⟩
      rw [unsplit_iff_isChain] at h ha hrest ⊢
      refine List.isChain_append.mpr ⟨List.isChain_append.mpr ⟨?_, ha, ?_⟩, hrest, ?_⟩
      · exact (List.isChain_append.mp h).1
      · rintro x - y hy ⟨-, rfl⟩
        rw [hhead] at hy
        exact absurd hy (by decide)
      · rintro x hx y - ⟨rfl, -⟩
        rw [List.getLast?_append, hlast] at hx
        cases hx
    · rw [replaceMarks_other hs hn]
      have hnext := @ih (pre ++ '%' :: s.take length)
      simp only [List.append_assoc, List.cons_append] at hnext ⊢
      rw [← List.append_assoc (s.take length), List.take_append_drop] at hnext
      exact hnext h

end CuteTorrent
