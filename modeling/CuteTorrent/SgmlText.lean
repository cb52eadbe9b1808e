import CuteTorrent.QSgml

/-! The text of tags, and what `QSgml` reads of it. -/
namespace CuteTorrent

section search
variable {text s skip found pre rest : QString}

theorem findText_append (hskip : ∀ t, t <:+ skip → t ≠ [] → ¬ text <+: t ++ found)
    (hfound : text <+: found) (hne : text ≠ []) (k : Nat) :
    findText text k (skip ++ found) = some (k + skip.length) := by
  induction skip generalizing k with
  | nil =>
    cases found with
    | nil => exact absurd (List.prefix_nil.mp hfound) hne
    | cons c found =>
      rw [List.nil_append, findText, if_pos (List.isPrefixOf_iff_prefix.mpr hfound)]
      rfl
  | cons c skip ih =>
    have hnot := hskip (c :: skip) (List.suffix_refl _) (List.cons_ne_nil _ _)
    rw [List.cons_append] at hnot
    rw [List.cons_append, findText,
      if_neg (fun hpre => hnot (List.isPrefixOf_iff_prefix.mp hpre)),
      ih (fun t ht => hskip t (ht.trans (List.suffix_cons c skip))), List.length_cons]
    congr 1
    omega

theorem findText_eq_none (hne : text ≠ []) (hnot : ¬ text <:+: s) (k : Nat) : findText text k s = none := by
  induction s generalizing k with
  | nil => rw [findText, if_neg hne]
  | cons c s ih =>
    rw [findText, if_neg (fun hpre => hnot (List.isPrefixOf_iff_prefix.mp hpre).isInfix),
      ih fun hwithin => hnot (hwithin.trans (List.suffix_cons c s).isInfix)]

theorem indexOf_of_findText {r : Option Nat} (h : findText text pre.length rest = r) :
    indexOf text (pre ++ rest) pre.length = r.elim (-1) fun k => (k : Int) := by
  have hstart : ¬ (pre.length : Int) < 0 := by omega
  unfold indexOf
  simp only [if_neg hstart, Int.toNat_natCast, List.drop_left, h]
  cases r <;> rfl

theorem indexOf_append (hskip : ∀ t, t <:+ skip → t ≠ [] → ¬ text <+: t ++ found)
    (hfound : text <+: found) (hne : text ≠ []) :
    indexOf text (pre ++ (skip ++ found)) pre.length = pre.length + skip.length := by
  rw [indexOf_of_findText (findText_append hskip hfound hne _)]
  exact Int.natCast_add _ _

theorem indexOf_eq_neg_one (hne : text ≠ []) (hnot : ¬ text <:+: rest) :
    indexOf text (pre ++ rest) pre.length = -1 :=
  indexOf_of_findText (findText_eq_none hne hnot _)

theorem indexOf_char (pre : QString) {c : Char} (hskip : c ∉ skip) (rest : QString) :
    indexOf [c] (pre ++ (skip ++ c :: rest)) pre.length = pre.length + skip.length := by
  refine indexOf_append (fun t ht hne hpre => ?_) (List.prefix_append [c] rest) (List.cons_ne_nil _ _)
  obtain ⟨d, t, rfl⟩ := List.exists_cons_of_ne_nil hne
  obtain ⟨rfl, -⟩ := List.cons_prefix_cons.mp hpre
  exact hskip (ht.subset List.mem_cons_self)

theorem indexOf_char_eq_neg_one (pre : QString) {c : Char} (hrest : c ∉ rest) :
    indexOf [c] (pre ++ rest) pre.length = -1 :=
  indexOf_eq_neg_one (List.cons_ne_nil _ _) fun hwithin => hrest (hwithin.subset List.mem_cons_self)

theorem charAt_append (pre : QString) (c : Char) (rest : QString) :
    charAt (pre ++ c :: rest) pre.length = .ok c := by
  unfold charAt
  rw [if_neg (by omega), Int.toNat_natCast]
  simp

theorem mid_append (pre text rest : QString) : mid (pre ++ (text ++ rest)) pre.length text.length = text := by
  have hstart : ¬ (pre.length : Int) < 0 := by omega
  have hlength : ¬ (text.length : Int) < 0 := by omega
  unfold mid
  simp only [if_neg hstart, if_neg hlength, Int.toNat_natCast, List.drop_left, List.take_left]
  split_ifs with hend
  · simp only [List.length_append, Int.natCast_add] at hend
    exact (List.length_eq_zero_iff.mp (by omega)).symm
  · rfl

theorem mid_rest (pre rest : QString) {n : Int} (hn : n < 0) : mid (pre ++ rest) pre.length n = rest := by
  have hlength : ((pre ++ rest).length : Int) - pre.length = rest.length := by
    simp only [List.length_append, Int.natCast_add]
    omega
  have hall := mid_append pre rest []
  rw [List.append_nil] at hall
  refine Eq.trans ?_ hall
  unfold mid
  simp only [if_pos hn, hlength, if_neg (show ¬ (rest.length : Int) < 0 by omega)]

theorem mid_before (s : QString) : mid s (-1) (-1) = s := by
  unfold mid
  rw [if_neg (by omega)]
  simp only [if_pos (show (-1 : Int) < 0 by omega)]
  exact List.take_of_length_le (by omega)

theorem left_append (text rest : QString) : left (text ++ rest) text.length = text := by
  unfold left
  rw [if_neg (by omega)]
  simp

theorem trimmed_eq {first last : Char} (hfirst : isSpace first = false) (hlast : isSpace last = false)
    (hhead : s.head? = some first) (hend : s.getLast? = some last) : trimmed s = s := by
  obtain ⟨t, rfl⟩ : ∃ t, s = first :: t := by
    cases s with
    | nil => cases hhead
    | cons c t =>
      cases hhead
      exact ⟨t, rfl⟩
  obtain ⟨t', ht'⟩ : ∃ t', (first :: t).reverse = last :: t' := by
    cases hrev : (first :: t).reverse with
    | nil => simp at hrev
    | cons c t' =>
      rw [← List.head?_reverse, hrev] at hend
      cases hend
      exact ⟨t', rfl⟩
  rw [trimmed, List.dropWhile_cons, if_neg (by simp [hfirst]), ht', List.dropWhile_cons,
    if_neg (by simp [hlast]), ← ht', List.reverse_reverse]

end search

namespace Markup

structure Inner where
  name : QString
  attributes : List (QString × QString)

def quoted (v : QString) : QString := '"' :: (v ++ ['"'])

def attributeText (a : QString × QString) : QString := (' ' :: a.1) ++ '=' :: quoted a.2

def Inner.text (i : Inner) : QString := i.name ++ i.attributes.flatMap attributeText

/-- The attributes of the tag; the last value of a name counts. -/
def stored (attributes m : List (QString × QString)) : List (QString × QString) :=
  attributes.foldl (fun m a => Assoc.insert a.1 a.2 m) m

@[simp] theorem length_quoted (v : QString) : (quoted v).length = v.length + 2 := by simp [quoted]

/-- The end of a quoted value decides where the next equals sign is sought. -/
theorem equals_after_quote {v : QString} (hv : '"' ∉ v) (tail : QString) :
    (if indexOf "\"".toList (quoted v ++ tail) 0 < indexOf "=".toList (quoted v ++ tail) 0 then
        indexOf "=".toList (quoted v ++ tail) (indexOf "\"".toList (quoted v ++ tail)
          (indexOf "\"".toList (quoted v ++ tail) 0 + 1) + 1)
      else indexOf "=".toList (quoted v ++ tail) 0) =
      indexOf "=".toList (quoted v ++ tail) (quoted v).length := by
  have hpage : quoted v ++ tail = '"' :: (v ++ '"' :: tail) := by simp [quoted]
  have hopen : indexOf "\"".toList (quoted v ++ tail) 0 = 0 :=
    indexOf_char [] List.not_mem_nil (v ++ ['"'] ++ tail)
  have hclose : indexOf "\"".toList (quoted v ++ tail) (0 + 1) = v.length + 1 := by
    have h := indexOf_char ['"'] hv tail
    rw [hpage, show (0 : Int) + 1 = (['"'] : QString).length from rfl]
    exact h.trans (Int.add_comm _ _)
  rw [hopen, hclose]
  by_cases hmem : '=' ∈ v ++ '"' :: tail
  · obtain ⟨skip, rest, hsplit, hskip⟩ := List.eq_append_cons_of_mem hmem
    have h := indexOf_char [] (show '=' ∉ '"' :: skip by simp [hskip]) rest
    have hpos : indexOf "=".toList (quoted v ++ tail) 0 = skip.length + 1 := by
      rw [hpage, hsplit]
      simpa using h
    rw [if_pos (by omega), length_quoted]
    congr 1
  · have hnone : indexOf "=".toList (quoted v ++ tail) 0 = -1 := by
      rw [hpage]
      exact indexOf_char_eq_neg_one []
        (by simp only [List.mem_cons, not_or]; exact ⟨by decide, hmem⟩)
    have hnone' : indexOf "=".toList (quoted v ++ tail) (quoted v).length = -1 :=
      indexOf_char_eq_neg_one _ fun hm =>
        hmem (List.mem_append_right v (List.mem_cons_of_mem _ hm))
    rw [hnone, hnone', if_neg (by omega)]

theorem attributeValue_quoted (v : QString) : SgmlTag.attributeValue (quoted v) = .ok v := by
  have hspace : isSpace '"' = false := by decide
  have htrim : trimmed (quoted v) = quoted v :=
    trimmed_eq hspace hspace rfl (by simp [quoted, List.getLast?_cons])
  have hfirst : charAt (quoted v) 0 = .ok '"' := charAt_append [] '"' (v ++ ['"'])
  have hlast : charAt (quoted v) ((quoted v).length - 1) = .ok '"' := by
    have h := charAt_append ('"' :: v) '"' []
    have hlength : ((quoted v).length : Int) - 1 = ('"' :: v).length := by
      simp only [length_quoted, List.length_cons]
      omega
    rw [hlength]
    exact h
  have hmid : mid (quoted v) 1 ((quoted v).length - 2) = v := by
    have hlength : ((quoted v).length : Int) - 2 = v.length := by
      simp only [length_quoted]
      omega
    rw [hlength]
    exact mid_append ['"'] v ['"']
  unfold SgmlTag.attributeValue
  dsimp only
  rw [htrim, hfirst, hlast]
  simp only [bind, Except.bind, true_or, if_true, hmid]
  rfl

theorem getLast?_values (v : QString) (attributes : List (QString × QString)) :
    (quoted v ++ attributes.flatMap attributeText).getLast? = some '"' := by
  rcases List.eq_nil_or_concat attributes with rfl | ⟨front, a, rfl⟩
  · simp [quoted, List.getLast?_cons]
  · simp [attributeText, quoted, List.getLast?_append, List.getLast?_cons]

theorem trimmed_quoted (v : QString) (attributes : List (QString × QString)) :
    trimmed (quoted v ++ attributes.flatMap attributeText) = quoted v ++ attributes.flatMap attributeText :=
  trimmed_eq (show isSpace '"' = false by decide) (show isSpace '"' = false by decide) rfl
    (getLast?_values v attributes)

theorem trimmed_space_cons (s : QString) : trimmed (' ' :: s) = trimmed s := by
  rw [trimmed, List.dropWhile_cons, if_pos (show isSpace ' ' = true by decide), trimmed]

theorem lastIndexOfSpace_append (front : QString) {name : QString} (h : ∀ c ∈ name, isSpace c = false) :
    lastIndexOfSpace (front ++ ' ' :: name) = front.length := by
  have hnot : ∀ c ∈ name.reverse, decide (c ∈ [' ', '\r', '\n', '\t']) = false := by
    intro c hc
    refine decide_eq_false fun hm => ?_
    have hspace : ∀ d ∈ [' ', '\r', '\n', '\t'], isSpace d = true :=
      List.forall_iff_forall_mem.mp (by decide)
    exact absurd (h c (List.mem_reverse.mp hc)) (by simp [hspace c hm])
  have hfind : ((front ++ ' ' :: name).reverse.findIdx? fun c => decide (c ∈ [' ', '\r', '\n', '\t'])) =
      some name.length := by
    rw [List.reverse_append, List.reverse_cons, List.append_assoc, List.findIdx?_append,
      List.findIdx?_eq_none_iff.mpr hnot, List.singleton_append, List.findIdx?_cons]
    simp
  unfold lastIndexOfSpace
  rw [hfind]
  simp only [List.length_append, List.length_cons]
  omega

theorem length_le_flatMap (attributes : List (QString × QString)) :
    attributes.length ≤ (attributes.flatMap attributeText).length := by
  induction attributes with
  | nil => exact Nat.le_refl 0
  | cons a attributes ih =>
    simp only [List.flatMap_cons, List.length_append, List.length_cons, attributeText]
    omega

variable [QtConversions]

structure Plain (c : Char) : Prop where
  space : isSpace c = false
  markup : c ∉ ['<', '>', '"', '\'', '=', '/', '!']
  lower : QtConversions.toLower c = c

structure PlainName (name : QString) : Prop where
  ne_nil : name ≠ []
  plain : ∀ c ∈ name, Plain c

theorem plainName_of_all {name : QString} (hne : name ≠ [])
    (h : name.all (fun c => decide (isSpace c = false ∧ c ∉ ['<', '>', '"', '\'', '=', '/', '!'] ∧
      QtConversions.toLower c = c)) = true) : PlainName name := by
  refine ⟨hne, fun c hc => ?_⟩
  obtain ⟨hspace, hmarkup, hlower⟩ := of_decide_eq_true (List.all_eq_true.mp h c hc)
  exact ⟨hspace, hmarkup, hlower⟩

structure Inner.Readable (i : Inner) : Prop where
  name : PlainName i.name
  keys : ∀ a ∈ i.attributes, PlainName a.1
  values : ∀ a ∈ i.attributes, '"' ∉ a.2

namespace PlainName
variable {name : QString}

theorem not_mem (h : PlainName name) {c : Char} (hc : c ∈ ['<', '>', '"', '\'', '=', '/', '!']) :
    c ∉ name := fun hm => (h.plain c hm).markup hc

theorem toLower (h : PlainName name) : SgmlTag.toLower name = name :=
  (List.map_congr_left fun c hc => (h.plain c hc).lower).trans (List.map_id' name)

theorem trimmed_eq_self (h : PlainName name) : trimmed name = name :=
  CuteTorrent.trimmed_eq_self fun c hc => (h.plain c hc).space

end PlainName

theorem next_attribute {k : QString} (hk : PlainName k) (front tail : QString) :
    indexOf "=".toList (front ++ ((' ' :: k) ++ '=' :: tail)) front.length =
        front.length + (k.length + 1) ∧
      left (front ++ ((' ' :: k) ++ '=' :: tail)) (front.length + (k.length + 1)) = front ++ ' ' :: k ∧
      left (front ++ ((' ' :: k) ++ '=' :: tail)) front.length = front ∧
      mid (front ++ ((' ' :: k) ++ '=' :: tail)) front.length
        (front.length + (k.length + 1) - front.length) = ' ' :: k ∧
      mid (front ++ ((' ' :: k) ++ '=' :: tail)) (front.length + (k.length + 1) + 1) (-1) = tail := by
  have hnot : '=' ∉ ' ' :: k := by
    rw [List.mem_cons, not_or]
    exact ⟨by decide, hk.not_mem (by decide)⟩
  refine ⟨indexOf_char _ hnot _, ?_, left_append _ _, ?_, ?_⟩
  · have h := left_append (front ++ ' ' :: k) ('=' :: tail)
    simpa using h
  · have hlength : (front.length + (k.length + 1) - front.length : Int) = (' ' :: k).length := by
      simp only [List.length_cons]
      omega
    rw [hlength]
    exact mid_append _ _ _
  · have h := mid_rest (front ++ ((' ' :: k) ++ ['='])) tail (n := -1) (by omega)
    have hlength : (front.length + (k.length + 1) + 1 : Int) =
        (front ++ ((' ' :: k) ++ ['='])).length := by
      simp only [List.length_append, List.length_cons, List.length_nil]
      omega
    rw [hlength]
    simpa using h

theorem attributes_eq {attributes : List (QString × QString)} (hkeys : ∀ a ∈ attributes, PlainName a.1)
    (hvalues : ∀ a ∈ attributes, '"' ∉ a.2) {rounds : Nat} (hrounds : attributes.length < rounds)
    {k v : QString} (hk : PlainName k) (hv : '"' ∉ v) (m : List (QString × QString)) :
    SgmlTag.attributes rounds k (quoted v ++ attributes.flatMap attributeText) m =
      .ok (stored ((k, v) :: attributes) m) := by
  induction attributes generalizing rounds k v m with
  | nil =>
    obtain ⟨rounds, rfl⟩ := Nat.exists_eq_succ_of_ne_zero (by omega : rounds ≠ 0)
    have hend : indexOf "=".toList (quoted v ++ []) (quoted v).length = -1 :=
      indexOf_char_eq_neg_one _ List.not_mem_nil
    rw [List.flatMap_nil, SgmlTag.attributes, equals_after_quote hv, hend, List.append_nil]
    simp only [if_true, attributeValue_quoted, hk.toLower]
    rfl
  | cons a attributes ih =>
    obtain ⟨k', v'⟩ := a
    obtain ⟨rounds, rfl⟩ := Nat.exists_eq_succ_of_ne_zero (by omega : rounds ≠ 0)
    have hk' : PlainName k' := hkeys _ List.mem_cons_self
    have hrest := ih (fun a ha => hkeys a (List.mem_cons_of_mem _ ha))
      (fun a ha => hvalues a (List.mem_cons_of_mem _ ha))
      (show attributes.length < rounds by simpa using hrounds) hk' (hvalues _ List.mem_cons_self) (Assoc.insert k v m)
    have hpage : quoted v ++ ((k', v') :: attributes).flatMap attributeText = quoted v ++
        ((' ' :: k') ++ '=' :: (quoted v' ++ attributes.flatMap attributeText)) := by
      simp [attributeText]
    obtain ⟨hend, hname, hvalue, hnext, htail⟩ :=
      next_attribute hk' (quoted v) (quoted v' ++ attributes.flatMap attributeText)
    have hspace := lastIndexOfSpace_append (quoted v) fun c hc => (hk'.plain c hc).space
    rw [SgmlTag.attributes, equals_after_quote hv, hpage, hend, if_neg (by omega), hname, hspace]
    dsimp only
    rw [hvalue, attributeValue_quoted, hnext, htail, trimmed_quoted,
      trimmed_space_cons, hk'.trimmed_eq_self, hk.toLower]
    exact hrest

theorem PlainName.exists_first {name : QString} (h : PlainName name) :
    ∃ c front, name = c :: front ∧ isSpace c = false ∧ c ≠ '!' ∧ c ≠ '/' := by
  obtain ⟨c, front, rfl⟩ := List.exists_cons_of_ne_nil h.ne_nil
  have hc := h.plain c List.mem_cons_self
  exact ⟨c, front, rfl, hc.space, fun he => hc.markup (by simp [he]), fun he => hc.markup (by simp [he])⟩

theorem PlainName.indexOf_space {name : QString} (h : PlainName name) : indexOf " ".toList name 0 = -1 :=
  indexOf_char_eq_neg_one [] fun hm => absurd (h.plain ' ' hm).space (by decide)

theorem name_found {name : QString} (h : PlainName name) {c : Char} {front : QString}
    (hname : name = c :: front) (hc : c ≠ '!' ∧ c ≠ '/') :
    charAt (SgmlTag.toLower name) 0 = .ok c ∧
      (if c = '!' ∨ c = '/' then mid (SgmlTag.toLower name) 1 (-1) else SgmlTag.toLower name) = name := by
  rw [h.toLower, if_neg (by simp [hc])]
  exact ⟨hname ▸ charAt_append [] c front, rfl⟩

theorem Inner.Readable.trimmed {i : Inner} (h : i.Readable) : trimmed i.text = i.text := by
  obtain ⟨c, front, hname, hc, -, -⟩ := h.name.exists_first
  unfold Inner.text
  rcases List.eq_nil_or_concat i.attributes with hnil | ⟨attributes, a, hlast⟩
  · rw [hnil, List.flatMap_nil, List.append_nil]
    exact h.name.trimmed_eq_self
  · refine trimmed_eq hc (show isSpace '"' = false by decide) (by rw [hname]; rfl) ?_
    simp [hlast, attributeText, quoted, List.getLast?_append, List.getLast?_cons]

theorem SetNameAttributes_inner {i : Inner} (h : i.Readable) :
    SgmlTag.SetNameAttributes i.text = .ok (i.name, stored i.attributes []) := by
  obtain ⟨c, front, hname, hspace, hc⟩ := h.name.exists_first
  obtain ⟨hfirst, hkeep⟩ := name_found h.name hname hc
  unfold SgmlTag.SetNameAttributes
  dsimp only
  rw [h.trimmed]
  obtain ⟨name, attributes⟩ := i
  have hplain : PlainName name := h.name
  cases attributes with
  | nil =>
    have htext : Inner.text ⟨name, []⟩ = name := List.append_nil name
    have hend : indexOf "=".toList name 0 = -1 :=
      indexOf_char_eq_neg_one [] (hplain.not_mem (by decide))
    have hleft : left name (-1) = name := rfl
    rw [htext, hplain.indexOf_space, hleft, hplain.trimmed_eq_self, hfirst, mid_before,
      hplain.trimmed_eq_self, hend]
    simp only [bind, Except.bind, if_true]
    rw [hkeep]
    rfl
  | cons a attributes =>
    obtain ⟨k, v⟩ := a
    have hk : PlainName k := h.keys _ List.mem_cons_self
    generalize htail : quoted v ++ attributes.flatMap attributeText = tail
    have htext : Inner.text ⟨name, (k, v) :: attributes⟩ = name ++ ' ' :: (k ++ '=' :: tail) := by
      simp [Inner.text, attributeText, ← htail]
    have hspace' : indexOf " ".toList (name ++ ' ' :: (k ++ '=' :: tail)) 0 = name.length := by
      have hno : ' ' ∉ name := fun hm => absurd (hplain.plain ' ' hm).space (by decide)
      have h := indexOf_char [] hno (k ++ '=' :: tail)
      simpa using h
    have hleft : left (name ++ ' ' :: (k ++ '=' :: tail)) name.length = name := left_append _ _
    have hbehind : trimmed (mid (name ++ ' ' :: (k ++ '=' :: tail)) name.length (-1)) = k ++ '=' :: tail := by
      obtain ⟨d, front', hk', hd, -, -⟩ := hk.exists_first
      rw [mid_rest _ _ (by omega), trimmed_space_cons]
      refine trimmed_eq hd (show isSpace '"' = false by decide) (by rw [hk']; rfl) ?_
      rw [List.getLast?_append, List.getLast?_cons, ← htail, getLast?_values]
      rfl
    have hend : indexOf "=".toList (k ++ '=' :: tail) 0 = k.length := by
      have h := indexOf_char [] (hk.not_mem (c := '=') (by decide)) tail
      simpa using h
    have hkey : left (k ++ '=' :: tail) k.length = k := left_append _ _
    have hrest : mid (k ++ '=' :: tail) (k.length + 1) (-1) = tail := by
      have h := mid_rest (k ++ ['=']) tail (n := -1) (by omega)
      simpa using h
    have htrim : trimmed tail = tail := htail ▸ trimmed_quoted v attributes
    rw [htext, hspace', hleft, hplain.trimmed_eq_self, hfirst, ← htext, h.trimmed, htext, hbehind, hend, hkey,
      hk.trimmed_eq_self, hrest, htrim]
    have hsome : ¬ (k.length : Int) = -1 := by omega
    simp only [bind, Except.bind, if_neg hsome, hkeep]
    have hrounds : attributes.length < tail.length + 1 := by
      have hlength := length_le_flatMap attributes
      rw [← htail, List.length_append]
      omega
    rw [← htail] at hrounds ⊢
    rw [attributes_eq (fun a ha => h.keys a (List.mem_cons_of_mem _ ha))
      (fun a ha => h.values a (List.mem_cons_of_mem _ ha)) hrounds hk (h.values _ List.mem_cons_self)]
    rfl

theorem SetNameAttributes_close (hslash : QtConversions.toLower '/' = '/') {name : QString}
    (h : PlainName name) : SgmlTag.SetNameAttributes ('/' :: name) = .ok (name, []) := by
  have hspace : ∀ c ∈ '/' :: name, isSpace c = false :=
    List.forall_mem_cons.mpr ⟨by decide, fun c hc => (h.plain c hc).space⟩
  have htrim : trimmed ('/' :: name) = '/' :: name := trimmed_eq_self hspace
  have hno : indexOf " ".toList ('/' :: name) 0 = -1 :=
    indexOf_char_eq_neg_one [] fun hm => absurd (hspace ' ' hm) (by decide)
  have hend : indexOf "=".toList ('/' :: name) 0 = -1 :=
    indexOf_char_eq_neg_one [] (by
      rw [List.mem_cons, not_or]
      exact ⟨by decide, h.not_mem (by decide)⟩)
  have hleft : left ('/' :: name) (-1) = '/' :: name := rfl
  have hlower : SgmlTag.toLower ('/' :: name) = '/' :: name :=
    (List.map_cons ..).trans (congrArg₂ List.cons hslash h.toLower)
  have hfirst : charAt ('/' :: name) 0 = .ok '/' := charAt_append [] '/' name
  have hname : mid ('/' :: name) 1 (-1) = name := mid_rest ['/'] name (by omega)
  unfold SgmlTag.SetNameAttributes
  dsimp only
  rw [htrim, hno, hleft, htrim, hlower, hfirst, mid_before, htrim, hend]
  simp only [bind, Except.bind, if_true, or_true, hname]
  rfl

end Markup
end CuteTorrent
