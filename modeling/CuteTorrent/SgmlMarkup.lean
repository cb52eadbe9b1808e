import CuteTorrent.SgmlText

/-! The tags of a page, and what each of them does to the tree of `QSgml`. -/
namespace CuteTorrent
namespace Markup
open QSgml

/-- A text without the end of a tag outside its quotes. -/
inductive Quiet : QString → Prop where
  | nil : Quiet []
  | char {c : Char} {s : QString} (hc : c ∉ ['>', '"', '\'']) (hs : Quiet s) : Quiet (c :: s)
  | double {v s : QString} (hv : '"' ∉ v) (hs : Quiet s) : Quiet ('"' :: (v ++ '"' :: s))
  | single {v s : QString} (hv : '\'' ∉ v) (hs : Quiet s) : Quiet ('\'' :: (v ++ '\'' :: s))

theorem Quiet.append {s t : QString} (hs : Quiet s) (ht : Quiet t) : Quiet (s ++ t) := by
  induction hs with
  | nil => exact ht
  | char hc _ ih => exact .char hc ih
  | double hv _ ih =>
    rw [List.cons_append, List.append_assoc, List.cons_append]
    exact .double hv ih
  | single hv _ ih =>
    rw [List.cons_append, List.append_assoc, List.cons_append]
    exact .single hv ih

theorem quiet_of_forall {s : QString} (h : ∀ c ∈ s, c ∉ ['>', '"', '\'']) : Quiet s := by
  induction s with
  | nil => exact .nil
  | cons c s ih => exact .char (h c List.mem_cons_self) (ih fun d hd => h d (List.mem_cons_of_mem c hd))

theorem behind (pre : QString) (c : Char) : (pre.length : Int) + 1 = (pre ++ [c]).length := by simp

theorem closing_quote {q : Char} {v : QString} (hv : q ∉ v) (pre rest : QString) :
    indexOf [q] (pre ++ q :: (v ++ q :: rest)) (pre.length + 1) = pre.length + 1 + v.length := by
  have h := indexOf_char (pre ++ [q]) hv rest
  rw [behind pre q]
  simpa using h

theorem FindEnd_quiet {skip : QString} (hskip : Quiet skip) (pre rest : QString) {rounds : Nat}
    (hrounds : skip.length < rounds) :
    FindEnd (pre ++ (skip ++ '>' :: rest)) rounds pre.length = .ok (pre.length + skip.length) := by
  induction hskip generalizing pre rounds with
  | nil =>
    obtain ⟨rounds, rfl⟩ := Nat.exists_eq_succ_of_ne_zero (by omega : rounds ≠ 0)
    rw [FindEnd, if_pos (by simp only [List.length_append, List.length_cons]; omega), List.nil_append, charAt_append]
    simp [bind, Except.bind, pure, Except.pure]
  | @char c s hc hs ih =>
    obtain ⟨rounds, rfl⟩ := Nat.exists_eq_succ_of_ne_zero (by omega : rounds ≠ 0)
    have hrest := ih (pre ++ [c]) (show s.length < rounds by simpa using hrounds)
    simp only [List.mem_cons, List.not_mem_nil, or_false, not_or] at hc
    rw [FindEnd, if_pos (by simp; omega), List.cons_append, charAt_append]
    simp only [bind, Except.bind, hc, if_false, charAt_append]
    rw [behind pre c]
    simpa [Int.add_assoc, Int.add_comm, Int.add_left_comm] using hrest
  | @double v s hv hs ih =>
    obtain ⟨rounds, rfl⟩ := Nat.exists_eq_succ_of_ne_zero (by omega : rounds ≠ 0)
    simp only [List.length_cons, List.length_append] at hrounds
    have hrest := ih (pre ++ ('"' :: (v ++ ['"']))) (show s.length < rounds by omega)
    have hclose := closing_quote hv pre (s ++ '>' :: rest)
    rw [FindEnd, if_pos (by simp; omega), List.cons_append, charAt_append]
    simp only [bind, Except.bind, charAt_append, Char.reduceEq, if_false, if_true]
    rw [List.append_assoc, List.cons_append, show "\"".toList = ['"'] from rfl, hclose]
    simpa [Int.add_assoc, Int.add_comm, Int.add_left_comm] using hrest
  | @single v s hv hs ih =>
    obtain ⟨rounds, rfl⟩ := Nat.exists_eq_succ_of_ne_zero (by omega : rounds ≠ 0)
    simp only [List.length_cons, List.length_append] at hrounds
    have hrest := ih (pre ++ ('\'' :: (v ++ ['\'']))) (show s.length < rounds by omega)
    have hclose := closing_quote hv pre (s ++ '>' :: rest)
    have hquote : charAt (pre ++ '\'' :: (v ++ '\'' :: (s ++ '>' :: rest))) (pre.length + 1 + v.length) =
        .ok '\'' := by
      have h := charAt_append (pre ++ '\'' :: v) '\'' (s ++ '>' :: rest)
      simpa [Int.add_assoc, Int.add_comm, Int.add_left_comm] using h
    rw [FindEnd, if_pos (by simp; omega), List.cons_append, charAt_append]
    simp only [bind, Except.bind, Char.reduceEq, if_false, if_true]
    rw [List.append_assoc, List.cons_append, show "'".toList = ['\''] from rfl, hclose, hquote]
    simp only [Char.reduceEq, if_false]
    simpa [Int.add_assoc, Int.add_comm, Int.add_left_comm] using hrest

theorem findEnd_quiet {skip : QString} (hskip : Quiet skip) (pre rest : QString) :
    findEnd (pre ++ (skip ++ '>' :: rest)) pre.length = .ok (pre.length + skip.length) :=
  FindEnd_quiet hskip pre rest (by simp only [List.length_append]; omega)

inductive Tag where
  | start (i : Inner)
  | standalone (i : Inner)
  | close (name : QString)
  | comment (text : QString)
  | doctype (text : QString)

def Inner.tag (i : Inner) (eType : TagType) (StartTagPos StartTagLength : Int) : SgmlTag :=
  ⟨⟨stored i.attributes [], i.name, eType, StartTagPos, StartTagLength, StartTagPos⟩, [], StartTagLength⟩

namespace Tag

def text : Tag → QString
  | start i => '<' :: (i.text ++ ['>'])
  | standalone i => '<' :: (i.text ++ ['/', '>'])
  | close name => '<' :: '/' :: (name ++ ['>'])
  | comment t => "<!--".toList ++ (t ++ "-->".toList)
  | doctype t => '<' :: '!' :: (t ++ ['>'])

/-- What a tag at `pos` does to the tree; an end tag that closes nothing does not get there. -/
def apply (tag : Tag) (pos : Int) (last : OpenTag) (ancestors : List OpenTag) :
    Option (OpenTag × List OpenTag) :=
  match tag with
  | start i => some (⟨i.tag .eStartTag pos tag.text.length, []⟩, last :: ancestors)
  | standalone i => some (last.append [.node (i.tag .eStandalone pos tag.text.length) []], ancestors)
  | close name => Reading.closeTag name pos tag.text.length last ancestors
  | comment t =>
    some (last.append [.node (.valued (trimmed t) .eComment pos tag.text.length) []], ancestors)
  | doctype t =>
    some (last.append [.node (.valued (trimmed t) .eDoctype pos tag.text.length) []], ancestors)

variable [QtConversions]

def Readable : Tag → Prop
  | start i => i.Readable
  | standalone i => i.Readable
  | close name => PlainName name
  | comment t => ¬ "-->".toList <:+: t ++ "--".toList
  | doctype t => Quiet t ∧ ¬ "--".toList <+: t

end Tag

theorem inside_found {inside : QString} (hquiet : Quiet inside) (pre rest : QString) :
    findEnd (pre ++ ('<' :: (inside ++ ['>']) ++ rest)) pre.length =
        .ok (pre.length + ('<' :: (inside ++ ['>'])).length - 1) ∧
      mid (pre ++ ('<' :: (inside ++ ['>']) ++ rest)) (pre.length + 1)
        (pre.length + ('<' :: (inside ++ ['>'])).length - 1 - pre.length - 1) = inside := by
  have hpage : pre ++ ('<' :: (inside ++ ['>']) ++ rest) = pre ++ ('<' :: inside ++ '>' :: rest) := by simp
  have hend : (pre.length + ('<' :: (inside ++ ['>'])).length - 1 : Int) = pre.length + ('<' :: inside).length := by
    simp only [List.length_cons, List.length_append, List.length_nil]
    omega
  rw [hend, hpage]
  constructor
  · exact findEnd_quiet (Quiet.char (by decide) hquiet) pre rest
  · have h := mid_append (pre ++ ['<']) inside ('>' :: rest)
    have hlength : (pre.length + ('<' :: inside).length - pre.length - 1 : Int) = inside.length := by
      simp only [List.length_cons]
      omega
    rw [hlength, behind pre '<']
    simpa using h

theorem length_of_end (pre text : QString) :
    (pre.length + text.length - 1 - pre.length + 1 : Int) = text.length := by omega

variable {r : QSgml.Reading} {pre : QString}

theorem HandleDoctype_doctype {t : QString} (h : Quiet t) (hpos : r.iPos = pre.length) (rest : QString) :
    r.HandleDoctype (pre ++ ((Tag.doctype t).text ++ rest)) =
      .ok ⟨r.LastTag.append [.node (.valued (trimmed t) .eDoctype pre.length (Tag.doctype t).text.length) []],
        r.ancestors, pre.length + (Tag.doctype t).text.length - 1,
        pre.length + (Tag.doctype t).text.length - 1⟩ := by
  obtain ⟨hend, -⟩ := inside_found (Quiet.char (c := '!') (by decide) h) pre rest
  have hinside : mid (pre ++ ((Tag.doctype t).text ++ rest)) (pre.length + 2)
      (pre.length + (Tag.doctype t).text.length - 1 - pre.length - 2) = t := by
    have hmid := mid_append (pre ++ ['<', '!']) t ('>' :: rest)
    have hlength : (pre.length + (Tag.doctype t).text.length - 1 - pre.length - 2 : Int) = t.length := by
      simp only [Tag.text, List.length_cons, List.length_append, List.length_nil]
      omega
    rw [hlength]
    simpa [Tag.text] using hmid
  unfold QSgml.Reading.HandleDoctype
  rw [hpos]
  dsimp only
  rw [show (Tag.doctype t).text = '<' :: ('!' :: t ++ ['>']) from rfl] at hinside ⊢
  rw [hend]
  simp only [bind, Except.bind, hinside, length_of_end]
  rfl

theorem HandleComment_comment {t : QString} (h : ¬ "-->".toList <:+: t ++ "--".toList)
    (hpos : r.iPos = pre.length) (rest : QString) :
    r.HandleComment (pre ++ ((Tag.comment t).text ++ rest)) =
      ⟨r.LastTag.append [.node (.valued (trimmed t) .eComment pre.length (Tag.comment t).text.length) []],
        r.ancestors, pre.length + (Tag.comment t).text.length - 1,
        pre.length + (Tag.comment t).text.length - 1⟩ := by
  have hpage : pre ++ ((Tag.comment t).text ++ rest) =
      (pre ++ "<!--".toList) ++ (t ++ ("-->".toList ++ rest)) := by simp [Tag.text]
  have hstart : (pre.length + 4 : Int) = (pre ++ "<!--".toList).length := by simp
  have hlength : ((Tag.comment t).text.length : Int) = t.length + 7 := by
    simp [Tag.text]
    omega
  have hend : indexOf "-->".toList ((pre ++ "<!--".toList) ++ (t ++ ("-->".toList ++ rest)))
      (pre ++ "<!--".toList).length = (pre ++ "<!--".toList).length + t.length := by
    refine indexOf_append (fun s hs hne hpre => h ?_) (List.prefix_append _ _) (by decide)
    have hshort : "-->".toList <+: s ++ "--".toList := by
      refine List.prefix_of_prefix_length_le hpre ?_ ?_
      · exact (List.prefix_append_right_inj s).mpr ⟨">".toList ++ rest, rfl⟩
      · have hpos := List.length_pos_iff.mpr hne
        rw [List.length_append]
        exact Nat.add_le_add_right hpos 2
    obtain ⟨front, rfl⟩ := hs
    rw [List.append_assoc]
    exact hshort.isInfix.trans (List.suffix_append _ _).isInfix
  have hlast : ((pre ++ "<!--".toList).length + t.length + 2 : Int) =
      pre.length + (Tag.comment t).text.length - 1 := by omega
  have hinside : mid ((pre ++ "<!--".toList) ++ (t ++ ("-->".toList ++ rest))) (pre ++ "<!--".toList).length
      ((pre ++ "<!--".toList).length + t.length - (pre ++ "<!--".toList).length) = t := by
    rw [Int.add_comm, Int.add_sub_cancel]
    exact mid_append _ _ _
  unfold QSgml.Reading.HandleComment
  rw [hpos]
  dsimp only
  rw [hstart, hpage, hend, hinside, hlast, ← hstart]
  simp only [QSgml.Reading.appendLeaf, Int.add_sub_cancel, hlength]
  congr 6
  omega

section handlers
variable [QtConversions]

theorem quiet_name {name : QString} (h : PlainName name) : Quiet name :=
  quiet_of_forall fun c hc hm => (h.plain c hc).markup (by
    simp only [List.mem_cons, List.not_mem_nil, or_false] at hm ⊢
    tauto)

theorem Inner.Readable.quiet {i : Inner} (h : i.Readable) : Quiet i.text := by
  obtain ⟨name, attributes⟩ := i
  refine (quiet_name h.name).append ?_
  have hkeys : ∀ a ∈ attributes, PlainName a.1 := h.keys
  have hvalues : ∀ a ∈ attributes, '"' ∉ a.2 := h.values
  dsimp only
  induction attributes with
  | nil => exact .nil
  | cons a attributes ih =>
    have hrest := ih ⟨h.name, fun a ha => hkeys a (List.mem_cons_of_mem _ ha),
        fun a ha => hvalues a (List.mem_cons_of_mem _ ha)⟩
      (fun a ha => hkeys a (List.mem_cons_of_mem _ ha))
      (fun a ha => hvalues a (List.mem_cons_of_mem _ ha))
    have hkey : Quiet (' ' :: a.1 ++ ['=']) :=
      (Quiet.char (by decide) (quiet_name (hkeys a List.mem_cons_self))).append (.char (by decide) .nil)
    have hvalue := Quiet.double (hvalues a List.mem_cons_self) hrest
    have h := hkey.append hvalue
    simpa [attributeText, quoted] using h

theorem Inner.Readable.exists_last {i : Inner} (h : i.Readable) :
    ∃ front c, i.text = front ++ [c] ∧ c ≠ '/' := by
  rcases List.eq_nil_or_concat i.attributes with hnil | ⟨attributes, a, hlast⟩
  · obtain ⟨front, c, hname⟩ := (List.eq_nil_or_concat i.name).resolve_left h.name.ne_nil
    refine ⟨front, c, by rw [Inner.text, hnil, hname]; simp, fun he => ?_⟩
    exact h.name.not_mem (c := '/') (by decide) (by rw [hname, he]; simp)
  · refine ⟨i.name ++ attributes.flatMap attributeText ++ ((' ' :: a.1) ++ '=' :: '"' :: a.2), '"', ?_, by decide⟩
    rw [Inner.text, hlast]
    simp [attributeText, quoted]

theorem named_inner {i : Inner} (h : i.Readable) (eType : TagType) (StartTagPos StartTagLength : Int) :
    SgmlTag.named i.text eType StartTagPos StartTagLength = .ok (i.tag eType StartTagPos StartTagLength) := by
  rw [SgmlTag.named, SetNameAttributes_inner h]
  rfl

theorem HandleStartTag_start {i : Inner} (h : i.Readable) (hpos : r.iPos = pre.length) (rest : QString) :
    r.HandleStartTag (pre ++ ((Tag.start i).text ++ rest)) =
      .ok ⟨⟨i.tag .eStartTag pre.length (Tag.start i).text.length, []⟩, r.LastTag :: r.ancestors,
        pre.length + (Tag.start i).text.length - 1, pre.length + (Tag.start i).text.length - 1⟩ := by
  obtain ⟨hend, hinside⟩ := inside_found h.quiet pre rest
  obtain ⟨front, c, hlast, hc⟩ := h.exists_last
  have hchar : charAt (pre ++ ((Tag.start i).text ++ rest)) (pre.length + (Tag.start i).text.length - 1 - 1) =
      .ok c := by
    have hc := charAt_append (pre ++ '<' :: front) c ('>' :: rest)
    have hpos : (pre.length + (Tag.start i).text.length - 1 - 1 : Int) = (pre ++ '<' :: front).length := by
      simp only [Tag.text, hlast, List.length_append, List.length_cons, List.length_nil]
      omega
    rw [hpos]
    simpa [Tag.text, hlast] using hc
  unfold QSgml.Reading.HandleStartTag
  rw [hpos]
  dsimp only
  rw [show (Tag.start i).text = '<' :: (i.text ++ ['>']) from rfl] at hchar ⊢
  rw [hend]
  simp only [bind, Except.bind, hinside, h.trimmed, hchar, if_neg hc, named_inner h, length_of_end]
  rfl

theorem HandleStartTag_standalone {i : Inner} (h : i.Readable) (hpos : r.iPos = pre.length) (rest : QString) :
    r.HandleStartTag (pre ++ ((Tag.standalone i).text ++ rest)) =
      .ok ⟨r.LastTag.append [.node (i.tag .eStandalone pre.length (Tag.standalone i).text.length) []],
        r.ancestors, pre.length + (Tag.standalone i).text.length - 1,
        pre.length + (Tag.standalone i).text.length - 1⟩ := by
  have htext : (Tag.standalone i).text = '<' :: ((i.text ++ ['/']) ++ ['>']) := by simp [Tag.text]
  obtain ⟨hend, hinside⟩ := inside_found (h.quiet.append (.char (c := '/') (by decide) .nil)) pre rest
  have hchar : charAt (pre ++ ((Tag.standalone i).text ++ rest))
      (pre.length + (Tag.standalone i).text.length - 1 - 1) = .ok '/' := by
    have hc := charAt_append (pre ++ '<' :: i.text) '/' ('>' :: rest)
    have hpos : (pre.length + (Tag.standalone i).text.length - 1 - 1 : Int) = (pre ++ '<' :: i.text).length := by
      simp only [htext, List.length_append, List.length_cons, List.length_nil]
      omega
    rw [hpos]
    simpa [htext] using hc
  have htrim : trimmed (i.text ++ ['/']) = i.text ++ ['/'] := by
    obtain ⟨c, front, hname, hc, -, -⟩ := h.name.exists_first
    exact trimmed_eq hc (show isSpace '/' = false by decide) (by rw [Inner.text, hname]; rfl) (by simp)
  have hleft : left (i.text ++ ['/']) ((i.text ++ ['/']).length - 1) = i.text := by
    have hlength : ((i.text ++ ['/']).length : Int) - 1 = i.text.length := by
      simp only [List.length_append, List.length_singleton]
      omega
    rw [hlength]
    exact left_append _ _
  unfold QSgml.Reading.HandleStartTag
  rw [hpos]
  dsimp only
  rw [htext] at hchar ⊢
  rw [hend]
  simp only [bind, Except.bind, hinside, htrim, hchar, if_true, hleft, named_inner h, length_of_end]
  rfl

theorem HandleEndTag_close (hslash : QtConversions.toLower '/' = '/') {name : QString} (h : PlainName name)
    (hpos : r.iPos = pre.length) (rest : QString) {last : OpenTag} {ancestors : List OpenTag}
    (hclose : (Tag.close name).apply pre.length r.LastTag r.ancestors = some (last, ancestors)) :
    r.HandleEndTag (pre ++ ((Tag.close name).text ++ rest)) =
      .ok ⟨last, ancestors, pre.length + (Tag.close name).text.length - 1,
        pre.length + (Tag.close name).text.length - 1⟩ := by
  obtain ⟨hend, hinside⟩ := inside_found (Quiet.char (c := '/') (by decide) (quiet_name h)) pre rest
  have hclose' : QSgml.Reading.closeTag name pre.length ('<' :: ('/' :: name ++ ['>'])).length r.LastTag
      r.ancestors = some (last, ancestors) := hclose
  unfold QSgml.Reading.HandleEndTag
  rw [hpos]
  dsimp only
  rw [show (Tag.close name).text = '<' :: ('/' :: name ++ ['>']) from rfl, hend]
  simp only [bind, Except.bind, hinside, SetNameAttributes_close hslash h, length_of_end]
  rw [hclose']
  rfl

theorem HandleEndTag_unmatched (hslash : QtConversions.toLower '/' = '/') {name : QString} (h : PlainName name)
    (hpos : r.iPos = pre.length) (rest : QString)
    (hclose : (Tag.close name).apply pre.length r.LastTag r.ancestors = none) :
    r.HandleEndTag (pre ++ ((Tag.close name).text ++ rest)) =
      .ok ⟨r.LastTag.append [.node endTag []], r.ancestors, pre.length + (Tag.close name).text.length - 1, -1⟩ := by
  obtain ⟨hend, hinside⟩ := inside_found (Quiet.char (c := '/') (by decide) (quiet_name h)) pre rest
  have hclose' : QSgml.Reading.closeTag name pre.length ('<' :: ('/' :: name ++ ['>'])).length r.LastTag
      r.ancestors = none := hclose
  unfold QSgml.Reading.HandleEndTag
  rw [hpos]
  dsimp only
  rw [show (Tag.close name).text = '<' :: ('/' :: name ++ ['>']) from rfl, hend]
  simp only [bind, Except.bind, hinside, SetNameAttributes_close hslash h, length_of_end]
  rw [hclose']
  rfl

theorem HandleTag_start {c : Char} (hc : c ≠ '!' ∧ c ≠ '/') (hpos : r.iPos = pre.length) (rest : QString) :
    r.HandleTag (pre ++ '<' :: c :: rest) = r.HandleStartTag (pre ++ '<' :: c :: rest) := by
  have hsecond := charAt_append (pre ++ ['<']) c rest
  rw [← behind, List.append_assoc, List.singleton_append] at hsecond
  unfold QSgml.Reading.HandleTag
  rw [hpos, hsecond]
  simp only [bind, Except.bind, if_neg hc.1, if_neg hc.2]

theorem HandleTag_close (hpos : r.iPos = pre.length) (rest : QString) :
    r.HandleTag (pre ++ '<' :: '/' :: rest) = r.HandleEndTag (pre ++ '<' :: '/' :: rest) := by
  have hsecond := charAt_append (pre ++ ['<']) '/' rest
  rw [← behind, List.append_assoc, List.singleton_append] at hsecond
  unfold QSgml.Reading.HandleTag
  rw [hpos, hsecond]
  rfl

theorem HandleTag_comment (hpos : r.iPos = pre.length) (rest : QString) :
    r.HandleTag (pre ++ ("<!--".toList ++ rest)) = .ok (r.HandleComment (pre ++ ("<!--".toList ++ rest))) := by
  have hsecond : charAt (pre ++ ("<!--".toList ++ rest)) (pre.length + 1) = .ok '!' := by
    simpa using charAt_append (pre ++ ['<']) '!' ("--".toList ++ rest)
  have hthird : charAt (pre ++ ("<!--".toList ++ rest)) (pre.length + 2) = .ok '-' := by
    simpa using charAt_append (pre ++ ['<', '!']) '-' ("-".toList ++ rest)
  have hfourth : charAt (pre ++ ("<!--".toList ++ rest)) (pre.length + 3) = .ok '-' := by
    simpa using charAt_append (pre ++ ['<', '!', '-']) '-' rest
  unfold QSgml.Reading.HandleTag
  rw [hpos, hsecond, hthird, hfourth]
  rfl

theorem HandleTag_doctype {t : QString} (h : ¬ "--".toList <+: t) (hpos : r.iPos = pre.length) (rest : QString) :
    r.HandleTag (pre ++ '<' :: '!' :: (t ++ '>' :: rest)) =
      r.HandleDoctype (pre ++ '<' :: '!' :: (t ++ '>' :: rest)) := by
  have hsecond : charAt (pre ++ '<' :: '!' :: (t ++ '>' :: rest)) (pre.length + 1) = .ok '!' := by
    simpa using charAt_append (pre ++ ['<']) '!' (t ++ '>' :: rest)
  have hthird : ∀ c s, t ++ '>' :: rest = c :: s →
      charAt (pre ++ '<' :: '!' :: (t ++ '>' :: rest)) (pre.length + 2) = .ok c := by
    intro c s hs
    rw [hs]
    simpa using charAt_append (pre ++ ['<', '!']) c s
  have hfourth : ∀ c d s, t ++ '>' :: rest = c :: d :: s →
      charAt (pre ++ '<' :: '!' :: (t ++ '>' :: rest)) (pre.length + 3) = .ok d := by
    intro c d s hs
    rw [hs]
    simpa using charAt_append (pre ++ ['<', '!', c]) d s
  unfold QSgml.Reading.HandleTag
  rw [hpos, hsecond]
  simp only [bind, Except.bind, if_true]
  cases t with
  | nil =>
    rw [hthird '>' rest rfl]
    rfl
  | cons c t =>
    rw [hthird c _ rfl]
    by_cases hc : c = '-'
    · subst hc
      obtain ⟨d, s, hs, hd⟩ : ∃ d s, t ++ '>' :: rest = d :: s ∧ d ≠ '-' := by
        cases t with
        | nil => exact ⟨'>', rest, rfl, by decide⟩
        | cons d t => exact ⟨d, _, rfl, fun he => h (by rw [he]; exact ⟨t, rfl⟩)⟩
      rw [hfourth '-' d s (congrArg ('-' :: ·) hs)]
      simp only [if_true, if_neg hd]
    · simp only [if_neg hc]

/-- Each tag does to the tree what it stands for, and the reading goes on at its end. -/
theorem HandleTag_tag {tag : Tag} (h : tag.Readable) (hslash : QtConversions.toLower '/' = '/')
    (hpos : r.iPos = pre.length) (rest : QString) {last : OpenTag} {ancestors : List OpenTag}
    (happly : tag.apply pre.length r.LastTag r.ancestors = some (last, ancestors)) :
    r.HandleTag (pre ++ (tag.text ++ rest)) =
      .ok ⟨last, ancestors, pre.length + tag.text.length - 1, pre.length + tag.text.length - 1⟩ := by
  cases tag with
  | start i =>
    have hi : i.Readable := h
    obtain ⟨c, front, hname, -, hc⟩ := hi.name.exists_first
    have hpage : pre ++ ((Tag.start i).text ++ rest) = pre ++ '<' :: c ::
        (front ++ i.attributes.flatMap attributeText ++ '>' :: rest) := by
      simp [Tag.text, Inner.text, hname]
    cases happly
    rw [hpage, HandleTag_start hc hpos, ← hpage]
    exact HandleStartTag_start hi hpos rest
  | standalone i =>
    have hi : i.Readable := h
    obtain ⟨c, front, hname, -, hc⟩ := hi.name.exists_first
    have hpage : pre ++ ((Tag.standalone i).text ++ rest) = pre ++ '<' :: c ::
        (front ++ i.attributes.flatMap attributeText ++ '/' :: '>' :: rest) := by
      simp [Tag.text, Inner.text, hname]
    cases happly
    rw [hpage, HandleTag_start hc hpos, ← hpage]
    exact HandleStartTag_standalone hi hpos rest
  | close name =>
    have hpage : pre ++ ((Tag.close name).text ++ rest) = pre ++ '<' :: '/' :: (name ++ '>' :: rest) := by
      simp [Tag.text]
    rw [hpage, HandleTag_close hpos, ← hpage]
    exact HandleEndTag_close hslash h hpos rest happly
  | comment t =>
    have hpage : pre ++ ((Tag.comment t).text ++ rest) = pre ++ ("<!--".toList ++ (t ++ ("-->".toList ++ rest))) := by
      simp [Tag.text]
    cases happly
    rw [hpage, HandleTag_comment hpos, ← hpage, HandleComment_comment h hpos]
  | doctype t =>
    have hpage : pre ++ ((Tag.doctype t).text ++ rest) = pre ++ '<' :: '!' :: (t ++ '>' :: rest) := by
      simp [Tag.text]
    cases happly
    rw [hpage, HandleTag_doctype h.2 hpos, ← hpage]
    exact HandleDoctype_doctype h.1 hpos rest

end handlers

/-! ### One round -/

/-- A text that begins with a letter it does not have again overlaps no text that begins
with the same letter. -/
theorem not_prefix_across {c : Char} {text found skip : QString} (hc : c ∉ text)
    (hskip : ¬ c :: text <:+: skip) {t : QString} (ht : t <:+ skip) (hne : t ≠ []) :
    ¬ c :: text <+: t ++ c :: found := by
  intro hpre
  rcases Nat.lt_or_ge t.length (c :: text).length with hlt | hge
  · obtain ⟨d, t, rfl⟩ := List.exists_cons_of_ne_nil hne
    have hinside : d :: t <+: c :: text :=
      List.prefix_of_prefix_length_le (List.prefix_append _ _) hpre hlt.le
    obtain ⟨behind, hbehind⟩ := (List.cons_prefix_cons.mp hinside).2
    rw [← hbehind] at hpre hc hlt
    have hrest : behind <+: c :: found := by
      have h := (List.cons_prefix_cons.mp hpre).2
      exact (List.prefix_append_right_inj t).mp h
    cases behind with
    | nil => simp at hlt
    | cons e behind =>
      obtain ⟨rfl, -⟩ := List.cons_prefix_cons.mp hrest
      exact hc (by simp)
  · exact hskip ((List.prefix_of_prefix_length_le hpre (List.prefix_append _ _) hge).isInfix.trans ht.isInfix)

/-- The characters in front of a tag, as a child of the tag that is open. -/
def cdata (pos : Int) (text : QString) : List (RoseTree SgmlTag) :=
  if (trimmed text).any fun c => !isSpace c then [.node (.valued (trimmed text) .eCdata pos text.length) []]
  else []

theorem HandleCdata_text {r : QSgml.Reading} (pre : QString) (hend : r.iEnd = pre.length - 1) (text rest : QString)
    (hpos : r.iPos = pre.length + text.length) :
    r.HandleCdata (pre ++ (text ++ rest)) =
      ⟨r.LastTag.append (cdata pre.length text), r.ancestors, pre.length + text.length,
        pre.length + text.length⟩ := by
  have hstart : (pre.length - 1 + 1 : Int) = pre.length := by omega
  have hlength : (pre.length + text.length - pre.length : Int) = text.length := by omega
  unfold QSgml.Reading.HandleCdata
  rw [hend, hpos]
  dsimp only
  rw [hstart, hlength, mid_append]
  unfold cdata
  split_ifs
  · rfl
  · rw [OpenTag.append, List.append_nil]

theorem Tag.text_eq_cons (tag : Tag) : ∃ inside, tag.text = '<' :: inside := by
  cases tag <;> exact ⟨_, rfl⟩

section round
variable [QtConversions]

/-- `QChar::toLower` on the letters of ASCII. -/
def LowersAscii : Prop := ∀ c : Char, c.toNat < 128 → QtConversions.toLower c = c.toLower

/-- The text between two tags, where the first of them leaves `name` open. -/
def Between (name : QString) (tag : Tag) (text : QString) : Prop :=
  if SgmlTag.toLower name ∈ QSgml.Reading.tagExeption then
    PlainName name ∧ tag = .close name ∧ ¬ "</".toList ++ name <:+: SgmlTag.toLower text ∧
      text.getLast? ≠ some '<'
  else '<' ∉ text

theorem exceptionPos_of_not_mem {page name : QString} (h : SgmlTag.toLower name ∉ QSgml.Reading.tagExeption)
    (iPos : Int) : QSgml.Reading.exceptionPos page name iPos = iPos := by
  simp only [QSgml.Reading.tagExeption, List.mem_cons, List.not_mem_nil, or_false, not_or] at h
  simp only [QSgml.Reading.exceptionPos, QSgml.Reading.tagExeption, List.foldl_cons, List.foldl_nil, h,
    if_false]

theorem exceptionPos_of_mem {page name : QString} (hname : PlainName name)
    (h : SgmlTag.toLower name ∈ QSgml.Reading.tagExeption) (iPos : Int) :
    QSgml.Reading.exceptionPos page name iPos =
      indexOf ("</".toList ++ name) (SgmlTag.toLower page) iPos - 1 := by
  have hne : "script".toList ≠ "style".toList := by decide
  rw [hname.toLower] at h
  simp only [QSgml.Reading.tagExeption, List.mem_cons, List.not_mem_nil, or_false] at h
  simp only [QSgml.Reading.exceptionPos, QSgml.Reading.tagExeption, List.foldl_cons, List.foldl_nil,
    hname.toLower]
  rcases h with rfl | rfl
  · rw [if_neg hne, if_pos rfl]
  · rw [if_pos rfl, if_neg hne.symm]

theorem findStart {name text : QString} {tag : Tag} (hascii : LowersAscii) (hbetween : Between name tag text)
    (front rest : QString) :
    indexOf "<".toList (front ++ '>' :: (text ++ (tag.text ++ rest)))
        (QSgml.Reading.exceptionPos (front ++ '>' :: (text ++ (tag.text ++ rest))) name front.length) =
      front.length + 1 + text.length := by
  obtain ⟨inside, htag⟩ := tag.text_eq_cons
  unfold Between at hbetween
  split_ifs at hbetween with hexception
  · obtain ⟨hname, rfl, hinside, hlast⟩ := hbetween
    have hlower : ∀ c ∈ ['<', '>', '/'], QtConversions.toLower c = c := by
      intro c hc
      simp only [List.mem_cons, List.not_mem_nil, or_false] at hc
      rcases hc with rfl | rfl | rfl
      · exact hascii _ (by decide)
      · exact hascii _ (by decide)
      · exact hascii _ (by decide)
    have hpage : SgmlTag.toLower (front ++ '>' :: (text ++ ((Tag.close name).text ++ rest))) =
        SgmlTag.toLower front ++ (('>' :: SgmlTag.toLower text) ++
          '<' :: ('/' :: (name ++ '>' :: SgmlTag.toLower rest))) := by
      have hnameLower : name.map QtConversions.toLower = name := hname.toLower
      simp [SgmlTag.toLower, Tag.text, hlower, hnameLower]
    have hclose : indexOf ("</".toList ++ name)
        (SgmlTag.toLower (front ++ '>' :: (text ++ ((Tag.close name).text ++ rest)))) front.length =
          front.length + (text.length + 1) := by
      have hlength : front.length = (SgmlTag.toLower front).length := (List.length_map _).symm
      have hlength' : (text.length + 1 : Int) = ('>' :: SgmlTag.toLower text).length := by
        simp [SgmlTag.toLower]
      rw [hpage, hlength, hlength']
      refine indexOf_append (fun t ht hne => ?_) ⟨'>' :: SgmlTag.toLower rest, by simp⟩ (by simp)
      refine not_prefix_across (show '<' ∉ '/' :: name from ?_) ?_ ht hne
      · rw [List.mem_cons, not_or]
        exact ⟨by decide, hname.not_mem (by decide)⟩
      · intro hwithin
        rcases List.infix_cons_iff.mp hwithin with hpre | hwithin
        · exact absurd (List.cons_prefix_cons.mp hpre).1 (by decide)
        · exact hinside hwithin
    obtain ⟨before, c, hsplit, hc⟩ : ∃ before c, front ++ '>' :: text = before ++ [c] ∧ c ≠ '<' := by
      rcases List.eq_nil_or_concat text with rfl | ⟨before, c, rfl⟩
      · exact ⟨front, '>', rfl, by decide⟩
      · refine ⟨front ++ '>' :: before, c, by simp, fun he => hlast ?_⟩
        simp [he]
    have hlength : (before.length : Int) = front.length + text.length := by
      have h := congrArg List.length hsplit
      simp only [List.length_append, List.length_cons, List.length_nil] at h
      omega
    have hstart : (front.length + (text.length + 1) - 1 : Int) = before.length := by omega
    have hpage' : front ++ '>' :: (text ++ ((Tag.close name).text ++ rest)) =
        before ++ ([c] ++ '<' :: (inside ++ rest)) := by
      have h := congrArg (· ++ '<' :: (inside ++ rest)) hsplit
      simpa [htag] using h
    rw [exceptionPos_of_mem hname hexception, hclose, hstart, hpage',
      show "<".toList = ['<'] from rfl, indexOf_char _ (by simpa using hc.symm)]
    simp only [List.length_singleton]
    omega
  · have hskip : '<' ∉ '>' :: text := by
      rw [List.mem_cons, not_or]
      exact ⟨by decide, hbetween⟩
    have hpage : front ++ '>' :: (text ++ (tag.text ++ rest)) =
        front ++ (('>' :: text) ++ '<' :: (inside ++ rest)) := by simp [htag]
    rw [exceptionPos_of_not_mem hexception, hpage, show "<".toList = ['<'] from rfl, indexOf_char _ hskip,
      List.length_cons]
    omega

theorem round_eq {tag : Tag} {text : QString} {last : OpenTag} (hascii : LowersAscii)
    (hbetween : Between last.tag.Name tag text) (front rest : QString) (ancestors : List OpenTag) :
    ∃ iEnd, (QSgml.Reading.mk last ancestors front.length front.length).round
        (front ++ '>' :: (text ++ (tag.text ++ rest))) =
      (QSgml.Reading.mk (last.append (cdata (front.length + 1) text)) ancestors iEnd
        ((front ++ '>' :: text).length : Int)).HandleTag ((front ++ '>' :: text) ++ (tag.text ++ rest)) := by
  have hpage : front ++ '>' :: (text ++ (tag.text ++ rest)) = (front ++ '>' :: text) ++ (tag.text ++ rest) := by
    simp
  have hplace : (front.length + 1 + text.length : Int) = (front ++ '>' :: text).length := by
    simp only [List.length_append, List.length_cons]
    omega
  have hpos : ¬ (front.length + 1 + text.length : Int) = -1 := by omega
  unfold QSgml.Reading.round
  dsimp only
  rw [findStart hascii hbetween front rest, if_neg hpos]
  by_cases htext : text = []
  · subst htext
    have hnone : cdata (front.length + 1) [] = [] := rfl
    have hlength : ¬ (front.length + 1 + ([] : QString).length : Int) > front.length + 1 := by simp
    refine ⟨front.length, ?_⟩
    rw [if_neg hlength, hplace, hpage, hnone, OpenTag.append, List.append_nil]
  · have hlength : (front.length + 1 + text.length : Int) > front.length + 1 := by
      have hlong := List.length_pos_iff.mpr htext
      omega
    have hcdata := HandleCdata_text
      (r := ⟨last, ancestors, front.length, front.length + 1 + text.length⟩) (front ++ ['>']) (by simp)
      text (tag.text ++ rest) (by simp)
    have hfront : (front ++ ['>']) ++ (text ++ (tag.text ++ rest)) =
        front ++ '>' :: (text ++ (tag.text ++ rest)) := by simp
    have hstart : ((front ++ ['>']).length : Int) = front.length + 1 := by simp
    rw [hfront, hstart] at hcdata
    refine ⟨front.length + 1 + text.length, ?_⟩
    rw [if_pos hlength, hcdata, hplace, hpage]

theorem round_tag {tag : Tag} {text : QString} {last last' : OpenTag} {ancestors ancestors' : List OpenTag}
    (hascii : LowersAscii) (h : tag.Readable) (hbetween : Between last.tag.Name tag text) (front rest : QString)
    (happly : tag.apply (front.length + 1 + text.length) (last.append (cdata (front.length + 1) text)) ancestors =
      some (last', ancestors')) :
    (QSgml.Reading.mk last ancestors front.length front.length).round
        (front ++ '>' :: (text ++ (tag.text ++ rest))) =
      .ok ⟨last', ancestors', front.length + text.length + tag.text.length,
        front.length + text.length + tag.text.length⟩ := by
  have hplace : (front.length + 1 + text.length : Int) = (front ++ '>' :: text).length := by
    simp only [List.length_append, List.length_cons]
    omega
  have hend : (front.length + text.length + tag.text.length : Int) =
      (front ++ '>' :: text).length + tag.text.length - 1 := by omega
  obtain ⟨iEnd, hround⟩ := round_eq hascii hbetween front rest ancestors
  rw [hplace] at happly
  rw [hround, HandleTag_tag h (hascii '/' (by decide)) rfl rest happly, hend]

theorem round_unmatched {name text : QString} {last : OpenTag} {ancestors : List OpenTag}
    (hascii : LowersAscii) (h : PlainName name) (hbetween : Between last.tag.Name (.close name) text)
    (front rest : QString)
    (happly : (Tag.close name).apply (front.length + 1 + text.length)
      (last.append (cdata (front.length + 1) text)) ancestors = none) :
    ∃ iEnd, (QSgml.Reading.mk last ancestors front.length front.length).round
        (front ++ '>' :: (text ++ ((Tag.close name).text ++ rest))) =
      .ok ⟨(last.append (cdata (front.length + 1) text)).append [.node endTag []], ancestors, iEnd, -1⟩ := by
  have hplace : (front.length + 1 + text.length : Int) = (front ++ '>' :: text).length := by
    simp only [List.length_append, List.length_cons]
    omega
  have hpage : (front ++ '>' :: text) ++ ((Tag.close name).text ++ rest) =
      (front ++ '>' :: text) ++ '<' :: '/' :: (name ++ '>' :: rest) := by simp [Tag.text]
  obtain ⟨iEnd, hround⟩ := round_eq hascii hbetween front rest ancestors
  rw [hplace] at happly
  rw [hround, hpage, HandleTag_close rfl, ← hpage]
  exact ⟨_, HandleEndTag_unmatched (hascii '/' (by decide)) h rfl rest happly⟩

theorem round_end {text : QString} {last : OpenTag} (hname : SgmlTag.toLower last.tag.Name ∉ QSgml.Reading.tagExeption)
    (htext : '<' ∉ text) (front : QString) (ancestors : List OpenTag) :
    (QSgml.Reading.mk last ancestors front.length front.length).round (front ++ '>' :: text) =
      .ok ⟨last.append [.node endTag []], ancestors, front.length, -1⟩ := by
  have hnone : indexOf "<".toList (front ++ '>' :: text) front.length = -1 :=
    indexOf_char_eq_neg_one _ (by
      rw [List.mem_cons, not_or]
      exact ⟨by decide, htext⟩)
  unfold QSgml.Reading.round
  dsimp only
  rw [exceptionPos_of_not_mem hname, hnone, if_pos rfl]
  rfl

theorem round_first {tag : Tag} {last last' : OpenTag} {ancestors' : List OpenTag} (hascii : LowersAscii)
    (h : tag.Readable) (hname : SgmlTag.toLower last.tag.Name ∉ QSgml.Reading.tagExeption) (iEnd : Int)
    (rest : QString) (happly : tag.apply 0 last [] = some (last', ancestors')) :
    (QSgml.Reading.mk last [] iEnd 0).round (tag.text ++ rest) =
      .ok ⟨last', ancestors', tag.text.length - 1, tag.text.length - 1⟩ := by
  obtain ⟨inside, htag⟩ := tag.text_eq_cons
  have hstart : indexOf "<".toList (tag.text ++ rest) 0 = 0 := by
    rw [htag]
    exact indexOf_char [] List.not_mem_nil _
  have hfinish : ∀ iEnd, (QSgml.Reading.mk last [] iEnd 0).HandleTag (tag.text ++ rest) =
      .ok ⟨last', ancestors', tag.text.length - 1, tag.text.length - 1⟩ := by
    intro iEnd
    have hpos : (QSgml.Reading.mk last [] iEnd 0).iPos = ([] : QString).length := rfl
    have h := HandleTag_tag h (hascii '/' (by decide)) hpos rest happly
    simpa using h
  unfold QSgml.Reading.round
  dsimp only
  rw [exceptionPos_of_not_mem hname, hstart, if_neg (by omega)]
  by_cases hbefore : (0 : Int) > iEnd + 1
  · have hnone : (QSgml.Reading.mk last [] iEnd 0).HandleCdata (tag.text ++ rest) = ⟨last, [], 0, 0⟩ := by
      have hmid : mid (tag.text ++ rest) (iEnd + 1) (0 - (iEnd + 1)) = [] := by
        unfold mid
        simp only [if_pos (show iEnd + 1 < 0 from hbefore), if_neg (show ¬ 0 - (iEnd + 1) < 0 by omega),
          Int.sub_add_cancel]
        split_ifs <;> rfl
      unfold QSgml.Reading.HandleCdata
      dsimp only
      rw [hmid]
      rfl
    rw [if_pos hbefore, hnone]
    exact hfinish 0
  · rw [if_neg hbefore]
    exact hfinish iEnd

end round

end Markup
end CuteTorrent
