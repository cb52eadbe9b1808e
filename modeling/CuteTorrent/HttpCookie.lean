import CuteTorrent.MultipartRequest

/-! Cookies as text: `HttpCookie::toByteArray`, and the constructor that reads it. -/
namespace CuteTorrent
open HttpRequest

def splitSign : QByteArray → Bool × QByteArray
  | 45 :: s => (true, s)
  | 43 :: s => (false, s)
  | s => (false, s)

/-- `QByteArray::toInt`; 0 where it is not ok. -/
def bytesToInt (s : QByteArray) : Int :=
  let (negative, digits) := splitSign ((cString s).dropWhile Bencode.isSpace)
  if digits ≠ [] ∧ digits.all Bencode.isDigit then
    let n : Int := if negative then -Bencode.digitsValue digits else Bencode.digitsValue digits
    if -2 ^ 31 ≤ n ∧ n < 2 ^ 31 then n else 0
  else 0

structure HttpCookie where
  name : QByteArray
  value : QByteArray
  comment : QByteArray
  domain : QByteArray
  maxAge : Int
  path : QByteArray
  secure : Bool
  version : Int
deriving DecidableEq, Repr

namespace HttpCookie

def initial : HttpCookie := ⟨[], [], [], [], 0, [], false, 1⟩

/-- A part is kept once it is trimmed, and not when it is empty then. -/
def appendPart (list : List QByteArray) (buffer : QByteArray) : List QByteArray :=
  let part := trimmedBytes buffer
  if part = [] then list else list ++ [part]

/-- The loop of `splitCSV`; semicolons between quotation marks do not separate. -/
def splitParts (inString : Bool) (list : List QByteArray) (buffer : QByteArray) :
    QByteArray → List QByteArray
  | [] => appendPart list buffer
  | c :: source =>
    if c = 34 then splitParts (!inString) list buffer source
    else if c = 59 ∧ inString = false then splitParts false (appendPart list buffer) [] source
    else splitParts inString list (buffer ++ [c]) source

def splitCSV (source : QByteArray) : List QByteArray := splitParts false [] [] source

/-- The name and the value of a part. Without `=` the position is -1, which counts as
true, and the part is all value. -/
def nameAndValue (part : QByteArray) : QByteArray × QByteArray :=
  match cut 61 part with
  | some ([], _) => (trimmedBytes part, [])
  | some (name, value) => (trimmedBytes name, trimmedBytes value)
  | none => ([], trimmedBytes part)

/-- One part of the text, in the order in which the names are compared. -/
def setPart (c : HttpCookie) (part : QByteArray) : HttpCookie :=
  let (name, value) := nameAndValue part
  if equalsLiteral name "Comment" then { c with comment := value }
  else if equalsLiteral name "Domain" then { c with domain := value }
  else if equalsLiteral name "Max-Age" then { c with maxAge := bytesToInt value }
  else if equalsLiteral name "Path" then { c with path := value }
  else if equalsLiteral name "Secure" then { c with secure := true }
  else if equalsLiteral name "Version" then { c with version := bytesToInt value }
  else if c.name = [] then { c with name := name, value := value }
  else c

def ofSource (source : QByteArray) : HttpCookie := (splitCSV source).foldl setPart initial

def toByteArray (c : HttpCookie) : QByteArray :=
  c.name ++ 61 :: c.value ++
    (if c.comment = [] then [] else literal "; Comment=" ++ c.comment) ++
    (if c.domain = [] then [] else literal "; Domain=" ++ c.domain) ++
    (if c.maxAge = 0 then [] else literal "; Max-Age=" ++ Bencode.integerToStr c.maxAge) ++
    (if c.path = [] then [] else literal "; Path=" ++ c.path) ++
    (if c.secure then literal "; Secure" else []) ++
    (literal "; Version=" ++ Bencode.integerToStr c.version)

end HttpCookie

/-! ### Texts without blanks at their ends -/

theorem trimmedBytes_eq_self {s : QByteArray} (hhead : ∀ b, s.head? = some b → Bencode.isSpace b = false)
    (hlast : ∀ b, s.getLast? = some b → Bencode.isSpace b = false) : trimmedBytes s = s := by
  have hdrop : ∀ t : QByteArray, (∀ b, t.head? = some b → Bencode.isSpace b = false) →
      t.dropWhile Bencode.isSpace = t := by
    intro t ht
    cases t with
    | nil => rfl
    | cons b t => rw [List.dropWhile_cons, if_neg (by simp [ht b rfl])]
  rw [trimmedBytes, hdrop s hhead, hdrop s.reverse (by simpa using hlast), List.reverse_reverse]

theorem trimmed_head {s : QByteArray} (h : trimmedBytes s = s) {b : UInt8} (hb : s.head? = some b) :
    Bencode.isSpace b = false := by
  cases s with
  | nil => cases hb
  | cons c s =>
    cases hb
    by_contra hspace
    rw [Bool.not_eq_false] at hspace
    have hlen := congrArg List.length h
    rw [trimmedBytes, List.dropWhile_cons, if_pos hspace, List.length_reverse] at hlen
    have h1 := ((s.dropWhile Bencode.isSpace).reverse.dropWhile_suffix Bencode.isSpace).length_le
    have h2 := (s.dropWhile_suffix Bencode.isSpace).length_le
    rw [List.length_reverse] at h1
    rw [List.length_cons] at hlen
    omega

theorem trimmed_last {s : QByteArray} (h : trimmedBytes s = s) {b : UInt8}
    (hb : s.getLast? = some b) : Bencode.isSpace b = false := by
  have hdrop : s.dropWhile Bencode.isSpace = s := by
    cases s with
    | nil => rfl
    | cons c s => rw [List.dropWhile_cons, if_neg (by simp [trimmed_head h rfl])]
  have hrev : s.reverse.dropWhile Bencode.isSpace = s.reverse := by
    rw [trimmedBytes, hdrop] at h
    exact List.reverse_eq_iff.mp h
  rw [← List.head?_reverse] at hb
  cases ht : s.reverse with
  | nil =>
    rw [ht] at hb
    cases hb
  | cons c t =>
    rw [ht] at hb hrev
    cases hb
    by_contra hspace
    rw [Bool.not_eq_false] at hspace
    rw [List.dropWhile_cons, if_pos hspace] at hrev
    have hlen := congrArg List.length hrev
    have hle := (t.dropWhile_suffix Bencode.isSpace).length_le
    rw [List.length_cons] at hlen
    omega

theorem trimmedBytes_cons_space {b : UInt8} (h : Bencode.isSpace b = true) (s : QByteArray) :
    trimmedBytes (b :: s) = trimmedBytes s := by
  rw [trimmedBytes, trimmedBytes, List.dropWhile_cons, if_pos h]

theorem trimmedBytes_append_spaces {s t : QByteArray} (h : trimmedBytes s = s)
    (ht : ∀ b ∈ t, Bencode.isSpace b = true) : trimmedBytes (s ++ t) = s := by
  cases s with
  | nil =>
    have hnil : t.dropWhile Bencode.isSpace = [] := List.dropWhile_eq_nil_iff.mpr ht
    rw [List.nil_append, trimmedBytes, hnil]
    rfl
  | cons b s =>
    have hb : Bencode.isSpace b = false := trimmed_head h rfl
    have hdrop : ∀ u : QByteArray, (b :: u).dropWhile Bencode.isSpace = b :: u := fun u => by
      rw [List.dropWhile_cons, if_neg (by simp [hb])]
    rw [trimmedBytes, List.cons_append, hdrop, ← List.cons_append, List.reverse_append,
      List.dropWhile_append_of_pos (by simpa using ht)]
    rw [trimmedBytes, hdrop] at h
    exact h

theorem trimmedBytes_pair {name value : QByteArray} {b : UInt8} (hb : Bencode.isSpace b = false)
    (hname : trimmedBytes name = name) (hne : name ≠ []) (hvalue : trimmedBytes value = value) :
    trimmedBytes (name ++ b :: value) = name ++ b :: value := by
  refine trimmedBytes_eq_self ?_ ?_
  · intro c hc
    rw [List.head?_append_of_ne_nil _ hne] at hc
    exact trimmed_head hname hc
  · intro c hc
    rw [List.getLast?_append_of_ne_nil _ (by simp)] at hc
    by_cases hv : value = []
    · subst hv
      cases hc
      exact hb
    · rw [List.getLast?_cons_of_ne_nil hv] at hc
      exact trimmed_last hvalue hc

theorem cut_append {b : UInt8} {s : QByteArray} (h : b ∉ s) (t : QByteArray) :
    cut b (s ++ b :: t) = some (s, t) := by
  have hsplit : (s ++ b :: t).takeWhile (fun c => decide (c ≠ b)) = s ∧
      (s ++ b :: t).dropWhile (fun c => decide (c ≠ b)) = b :: t := by
    induction s with
    | nil => simp
    | cons c s ih =>
      have hc : c ≠ b := fun he => h (by simp [he])
      have hrest := ih fun hm => h (List.mem_cons_of_mem _ hm)
      rw [List.cons_append, List.takeWhile_cons, List.dropWhile_cons, if_pos (by simp [hc]),
        if_pos (by simp [hc]), hrest.1, hrest.2]
      exact ⟨rfl, rfl⟩
  rw [cut, if_pos (by simp), hsplit.1, hsplit.2]
  rfl

theorem bytesToInt_integerToStr {n : Int} (hlo : -2 ^ 31 ≤ n) (hhi : n < 2 ^ 31) :
    bytesToInt (Bencode.integerToStr n) = n := by
  obtain ⟨b, ds, hds⟩ := List.exists_cons_of_ne_nil (Bencode.decimal_ne_nil n.natAbs)
  have hdigit : ∀ c ∈ Bencode.decimal n.natAbs, Bencode.isDigit c = true := Bencode.decimal_isDigit _
  have hvalue : Bencode.digitsValue (Bencode.decimal n.natAbs) = n.natAbs := Bencode.digitsValue_decimal _
  have hb := Bencode.isDigit_ne (hdigit b (by simp [hds]))
  have hall : (Bencode.decimal n.natAbs).all Bencode.isDigit = true := List.all_eq_true.mpr hdigit
  have hnz : ∀ c ∈ Bencode.decimal n.natAbs, c ≠ 0 := fun c hc => (Bencode.isDigit_ne (hdigit c hc)).1
  unfold bytesToInt Bencode.integerToStr
  by_cases hneg : n < 0
  · have hc : cString (45 :: Bencode.decimal n.natAbs) = 45 :: Bencode.decimal n.natAbs := by
      rw [cString_eq_self_iff]
      simpa using hnz
    have hsplit : splitSign ((45 :: Bencode.decimal n.natAbs).dropWhile Bencode.isSpace) =
        (true, Bencode.decimal n.natAbs) := rfl
    rw [if_pos hneg, hc, hsplit]
    dsimp only
    rw [if_pos ⟨Bencode.decimal_ne_nil _, hall⟩, if_pos rfl, hvalue, if_pos (by omega)]
    omega
  · have hc : cString (Bencode.decimal n.natAbs) = Bencode.decimal n.natAbs :=
      (cString_eq_self_iff _).mpr hnz
    have hsplit : splitSign ((Bencode.decimal n.natAbs).dropWhile Bencode.isSpace) =
        (false, Bencode.decimal n.natAbs) := by
      rw [hds, List.dropWhile_cons, if_neg (by simp [hb.2.2.2.2.2.2.2.2]), splitSign.eq_def]
      split
      · next he => exact absurd (List.cons.inj he).1 hb.2.2.1
      · next he => exact absurd (List.cons.inj he).1 hb.2.1
      · rfl
    rw [if_neg hneg, hc, hsplit]
    dsimp only
    rw [if_pos ⟨Bencode.decimal_ne_nil _, hall⟩, if_neg Bool.false_ne_true, hvalue, if_pos (by omega)]
    omega

namespace HttpCookie

/-! ### Reading what has been written -/

def Plain (s : QByteArray) : Prop := 34 ∉ s ∧ 59 ∉ s

theorem Plain.append {s t : QByteArray} (hs : Plain s) (ht : Plain t) : Plain (s ++ t) :=
  ⟨by simp [hs.1, ht.1], by simp [hs.2, ht.2]⟩

theorem splitParts_plain {s : QByteArray} (h : Plain s) (list : List QByteArray)
    (buffer rest : QByteArray) :
    splitParts false list buffer (s ++ rest) = splitParts false list (buffer ++ s) rest := by
  induction s generalizing buffer with
  | nil => rw [List.nil_append, List.append_nil]
  | cons c s ih =>
    have hquote : c ≠ 34 := fun he => h.1 (by simp [he])
    have hsemi : c ≠ 59 := fun he => h.2 (by simp [he])
    have hs : Plain s := ⟨fun hm => h.1 (List.mem_cons_of_mem _ hm),
      fun hm => h.2 (List.mem_cons_of_mem _ hm)⟩
    rw [List.cons_append, splitParts, if_neg hquote, if_neg (by simp [hsemi]), ih hs,
      List.append_assoc]
    rfl

theorem appendPart_blanks {part blanks : QByteArray} (hblanks : ∀ b ∈ blanks, Bencode.isSpace b = true)
    (htrim : trimmedBytes part = part) (hne : part ≠ []) (list : List QByteArray) :
    appendPart list (blanks ++ part) = list ++ [part] := by
  have hkeep : trimmedBytes (blanks ++ part) = part := by
    induction blanks with
    | nil => exact htrim
    | cons b blanks ih =>
      rw [List.cons_append, trimmedBytes_cons_space (hblanks b List.mem_cons_self)]
      exact ih fun c hc => hblanks c (List.mem_cons_of_mem _ hc)
  rw [appendPart, hkeep, if_neg hne]

theorem splitCSV_parts {part : QByteArray} {parts : List QByteArray}
    (h : ∀ p ∈ part :: parts, Plain p ∧ trimmedBytes p = p ∧ p ≠ []) :
    splitCSV (part ++ parts.flatMap fun p => 59 :: 32 :: p) = part :: parts := by
  have hall : ∀ (parts list : List QByteArray) (part blanks : QByteArray),
      (∀ b ∈ blanks, Bencode.isSpace b = true) →
      (∀ p ∈ part :: parts, Plain p ∧ trimmedBytes p = p ∧ p ≠ []) →
      splitParts false list (blanks ++ part) (parts.flatMap fun p => 59 :: 32 :: p) =
        list ++ part :: parts := by
    intro parts
    induction parts with
    | nil =>
      intro list part blanks hblanks h
      obtain ⟨-, htrim, hne⟩ := h part List.mem_cons_self
      exact appendPart_blanks hblanks htrim hne list
    | cons next parts ih =>
      intro list part blanks hblanks h
      obtain ⟨-, htrim, hne⟩ := h part List.mem_cons_self
      have hnext := h next (List.mem_cons_of_mem _ List.mem_cons_self)
      have hrest := ih (list ++ [part]) next [32] (by simp [Bencode.isSpace])
        fun p hp => h p (List.mem_cons_of_mem _ hp)
      rw [List.append_assoc] at hrest
      rw [List.flatMap_cons, List.cons_append, splitParts, if_neg (by decide), if_pos (by simp),
        appendPart_blanks hblanks htrim hne, List.cons_append, splitParts, if_neg (by decide),
        if_neg (by simp), splitParts_plain hnext.1]
      exact hrest
  have hfirst := hall parts [] part [] (by simp) h
  rw [splitCSV, splitParts_plain (h part List.mem_cons_self).1]
  exact hfirst

theorem nameAndValue_pair {name value : QByteArray} (hne : name ≠ []) (heq : 61 ∉ name)
    (hname : trimmedBytes name = name) (hvalue : trimmedBytes value = value) :
    nameAndValue (name ++ 61 :: value) = (name, value) := by
  obtain ⟨b, t, rfl⟩ := List.exists_cons_of_ne_nil hne
  rw [nameAndValue, cut_append heq]
  dsimp only
  rw [hname, hvalue]

/-- A cookie whose texts can be told apart once they are put together. -/
structure Writable (c : HttpCookie) : Prop where
  name_ne_nil : c.name ≠ []
  name_equals : 61 ∉ c.name
  name : Plain c.name ∧ trimmedBytes c.name = c.name
  reserved : ∀ reserved ∈ ["Comment", "Domain", "Max-Age", "Path", "Secure", "Version"],
    equalsLiteral c.name reserved = false
  value : Plain c.value ∧ trimmedBytes c.value = c.value
  comment : Plain c.comment ∧ trimmedBytes c.comment = c.comment
  domain : Plain c.domain ∧ trimmedBytes c.domain = c.domain
  path : Plain c.path ∧ trimmedBytes c.path = c.path
  maxAge : -2 ^ 31 ≤ c.maxAge ∧ c.maxAge < 2 ^ 31
  version : -2 ^ 31 ≤ c.version ∧ c.version < 2 ^ 31

/-- A part of the text, left out where its value is the one of a new cookie. -/
def field (out : Prop) [Decidable out] (part : QByteArray) : List QByteArray :=
  if out then [] else [part]

def fields (c : HttpCookie) : List QByteArray :=
  field (c.comment = []) (literal "Comment" ++ 61 :: c.comment) ++
    (field (c.domain = []) (literal "Domain" ++ 61 :: c.domain) ++
    (field (c.maxAge = 0) (literal "Max-Age" ++ 61 :: Bencode.integerToStr c.maxAge) ++
    (field (c.path = []) (literal "Path" ++ 61 :: c.path) ++
    (field (c.secure = false) (literal "Secure") ++
      [literal "Version" ++ 61 :: Bencode.integerToStr c.version]))))

theorem flatMap_field (out : Prop) [Decidable out] (part : QByteArray) :
    (field out part).flatMap (fun p => 59 :: 32 :: p) =
      if out then [] else 59 :: 32 :: part := by
  unfold field
  split_ifs <;> simp

theorem toByteArray_eq (c : HttpCookie) :
    c.toByteArray = (c.name ++ 61 :: c.value) ++ c.fields.flatMap fun p => 59 :: 32 :: p := by
  have hcomment : literal "; Comment=" = 59 :: 32 :: (literal "Comment" ++ [61]) := by decide
  have hdomain : literal "; Domain=" = 59 :: 32 :: (literal "Domain" ++ [61]) := by decide
  have hmaxAge : literal "; Max-Age=" = 59 :: 32 :: (literal "Max-Age" ++ [61]) := by decide
  have hpath : literal "; Path=" = 59 :: 32 :: (literal "Path" ++ [61]) := by decide
  have hsecure : literal "; Secure" = 59 :: 32 :: literal "Secure" := by decide
  have hversion : literal "; Version=" = 59 :: 32 :: (literal "Version" ++ [61]) := by decide
  unfold toByteArray fields
  rw [hcomment, hdomain, hmaxAge, hpath, hsecure, hversion]
  simp only [List.flatMap_append, flatMap_field, List.append_assoc, List.cons_append,
    List.flatMap_cons, List.flatMap_nil, List.append_nil, List.nil_append]
  cases c.secure <;> rfl

theorem integerToStr_plain (n : Int) : Plain (Bencode.integerToStr n) ∧
    trimmedBytes (Bencode.integerToStr n) = Bencode.integerToStr n := by
  have hbyte : ∀ b ∈ Bencode.integerToStr n, b = 45 ∨ Bencode.isDigit b = true := by
    intro b hb
    unfold Bencode.integerToStr at hb
    split_ifs at hb
    · rcases List.mem_cons.mp hb with rfl | hb
      · exact .inl rfl
      · exact .inr (Bencode.decimal_isDigit _ b hb)
    · exact .inr (Bencode.decimal_isDigit _ b hb)
  have hspace : ∀ b ∈ Bencode.integerToStr n, Bencode.isSpace b = false := by
    intro b hb
    rcases hbyte b hb with rfl | hdigit
    · decide
    · exact (Bencode.isDigit_ne hdigit).2.2.2.2.2.2.2.2
  refine ⟨⟨fun h => ?_, fun h => ?_⟩, ?_⟩
  · rcases hbyte 34 h with he | he
    · cases he
    · exact absurd he (by decide)
  · rcases hbyte 59 h with he | he
    · cases he
    · exact absurd he (by decide)
  · exact trimmedBytes_eq_self (fun b hb => hspace b (List.mem_of_head? hb))
      fun b hb => hspace b (List.mem_of_getLast? hb)

theorem part_splits {name value : QByteArray} (hname : Plain name ∧ trimmedBytes name = name)
    (hne : name ≠ []) (hvalue : Plain value ∧ trimmedBytes value = value) :
    Plain (name ++ 61 :: value) ∧ trimmedBytes (name ++ 61 :: value) = name ++ 61 :: value ∧
      name ++ 61 :: value ≠ [] := by
  have hequals : Plain [61] := ⟨by decide, by decide⟩
  refine ⟨hname.1.append (hequals.append hvalue.1), ?_, by simp⟩
  exact trimmedBytes_pair (by decide) hname.2 hne hvalue.2

theorem mem_field {out : Prop} [Decidable out] {p part : QByteArray} (h : p ∈ field out part) :
    p = part := by
  unfold field at h
  split_ifs at h
  · cases h
  · exact List.mem_singleton.mp h

theorem Writable.splits {c : HttpCookie} (h : c.Writable) :
    ∀ p ∈ (c.name ++ 61 :: c.value) :: c.fields, Plain p ∧ trimmedBytes p = p ∧ p ≠ [] := by
  have hreserved : ∀ reserved ∈ ["Comment", "Domain", "Max-Age", "Path", "Secure", "Version"],
      (34 ∉ literal reserved ∧ 59 ∉ literal reserved) ∧
        trimmedBytes (literal reserved) = literal reserved ∧ literal reserved ≠ [] := by decide
  have hpart : ∀ reserved ∈ ["Comment", "Domain", "Max-Age", "Path", "Secure", "Version"],
      ∀ value, Plain value ∧ trimmedBytes value = value →
      Plain (literal reserved ++ 61 :: value) ∧
        trimmedBytes (literal reserved ++ 61 :: value) = literal reserved ++ 61 :: value ∧
        literal reserved ++ 61 :: value ≠ [] := by
    intro reserved hmem value hvalue
    obtain ⟨hplain, htrim, hne⟩ := hreserved reserved hmem
    exact part_splits ⟨hplain, htrim⟩ hne hvalue
  intro p hp
  rw [fields] at hp
  simp only [List.mem_cons, List.mem_append, List.not_mem_nil, or_false] at hp
  rcases hp with rfl | hp | hp | hp | hp | hp | rfl
  · exact part_splits h.name h.name_ne_nil h.value
  · exact mem_field hp ▸ hpart "Comment" (by simp) _ h.comment
  · exact mem_field hp ▸ hpart "Domain" (by simp) _ h.domain
  · exact mem_field hp ▸ hpart "Max-Age" (by simp) _ (integerToStr_plain _)
  · exact mem_field hp ▸ hpart "Path" (by simp) _ h.path
  · exact mem_field hp ▸ hreserved "Secure" (by simp)
  · exact hpart "Version" (by simp) _ (integerToStr_plain _)

theorem foldl_field {out : Prop} [Decidable out] {part : QByteArray} {c d : HttpCookie}
    (hout : out → d = c) (hset : setPart c part = d) : (field out part).foldl setPart c = d := by
  unfold field
  split_ifs with h
  · exact (hout h).symm
  · exact hset

theorem setPart_reserved {name value : QByteArray} (hne : name ≠ []) (heq : 61 ∉ name)
    (hname : trimmedBytes name = name) (hvalue : trimmedBytes value = value) (c : HttpCookie) :
    setPart c (name ++ 61 :: value) =
      if equalsLiteral name "Comment" then { c with comment := value }
      else if equalsLiteral name "Domain" then { c with domain := value }
      else if equalsLiteral name "Max-Age" then { c with maxAge := bytesToInt value }
      else if equalsLiteral name "Path" then { c with path := value }
      else if equalsLiteral name "Secure" then { c with secure := true }
      else if equalsLiteral name "Version" then { c with version := bytesToInt value }
      else if c.name = [] then { c with name := name, value := value }
      else c := by
  rw [setPart, nameAndValue_pair hne heq hname hvalue]

/-- A part without `=` has no name, and a cookie that has its name takes no notice of it. -/
theorem setPart_secure {c : HttpCookie} (h : c.name ≠ []) : setPart c (literal "Secure") = c := by
  have hpart : nameAndValue (literal "Secure") = ([], literal "Secure") := by decide
  have hnone : ∀ text ∈ ["Comment", "Domain", "Max-Age", "Path", "Secure", "Version"],
      equalsLiteral [] text = false := by decide
  rw [setPart, hpart]
  dsimp only
  rw [hnone _ (by simp), hnone _ (by simp), hnone _ (by simp), hnone _ (by simp),
    hnone _ (by simp), hnone _ (by simp), if_neg h]
  rfl

/-- What is written of a cookie is read again, but for the mark that it is secure. -/
theorem ofSource_toByteArray {c : HttpCookie} (h : c.Writable) :
    ofSource c.toByteArray = { c with secure := false } := by
  have hreserved := h.reserved
  simp only [List.forall_mem_cons, List.not_mem_nil, false_imp_iff, implies_true, and_true] at hreserved
  obtain ⟨h1, h2, h3, h4, h5, h6⟩ := hreserved
  have hname : setPart initial (c.name ++ 61 :: c.value) =
      { initial with name := c.name, value := c.value } := by
    rw [setPart_reserved h.name_ne_nil h.name_equals h.name.2 h.value.2, h1, h2, h3, h4, h5, h6]
    rfl
  have hcomment : ∀ d : HttpCookie, d.comment = [] →
      (field (c.comment = []) (literal "Comment" ++ 61 :: c.comment)).foldl setPart d =
        { d with comment := c.comment } := by
    intro d hd
    refine foldl_field (fun hout => by rw [hout, ← hd]) ?_
    rw [setPart_reserved (by decide) (by decide) (by decide) h.comment.2]
    rfl
  have hdomain : ∀ d : HttpCookie, d.domain = [] →
      (field (c.domain = []) (literal "Domain" ++ 61 :: c.domain)).foldl setPart d =
        { d with domain := c.domain } := by
    intro d hd
    refine foldl_field (fun hout => by rw [hout, ← hd]) ?_
    rw [setPart_reserved (by decide) (by decide) (by decide) h.domain.2]
    rfl
  have hmaxAge : ∀ d : HttpCookie, d.maxAge = 0 →
      (field (c.maxAge = 0) (literal "Max-Age" ++ 61 :: Bencode.integerToStr c.maxAge)).foldl
        setPart d = { d with maxAge := c.maxAge } := by
    intro d hd
    refine foldl_field (fun hout => by rw [hout, ← hd]) ?_
    rw [setPart_reserved (by decide) (by decide) (by decide) (integerToStr_plain _).2,
      bytesToInt_integerToStr h.maxAge.1 h.maxAge.2]
    rfl
  have hpath : ∀ d : HttpCookie, d.path = [] →
      (field (c.path = []) (literal "Path" ++ 61 :: c.path)).foldl setPart d =
        { d with path := c.path } := by
    intro d hd
    refine foldl_field (fun hout => by rw [hout, ← hd]) ?_
    rw [setPart_reserved (by decide) (by decide) (by decide) h.path.2]
    rfl
  have hsecure : ∀ d : HttpCookie, d.name ≠ [] →
      (field (c.secure = false) (literal "Secure")).foldl setPart d = d :=
    fun d hd => foldl_field (fun _ => rfl) (setPart_secure hd)
  rw [ofSource, toByteArray_eq, splitCSV_parts h.splits, List.foldl_cons, hname, fields,
    List.foldl_append, hcomment _ rfl, List.foldl_append, hdomain _ rfl, List.foldl_append,
    hmaxAge _ rfl, List.foldl_append, hpath _ rfl, List.foldl_append, hsecure, List.foldl_cons, List.foldl_nil,
    setPart_reserved (by decide) (by decide) (by decide) (integerToStr_plain _).2,
    bytesToInt_integerToStr h.version.1 h.version.2]
  · rfl
  · exact h.name_ne_nil

theorem session_cookie_read :
    ofSource (toByteArray ⟨literal "sessionid", literal "x1", [], [], 3600, literal "/", true, 1⟩) =
      ⟨literal "sessionid", literal "x1", [], [], 3600, literal "/", false, 1⟩ :=
  ofSource_toByteArray ⟨by decide, by decide, ⟨⟨by decide, by decide⟩, by decide⟩, by decide,
    ⟨⟨by decide, by decide⟩, by decide⟩, ⟨⟨by decide, by decide⟩, by decide⟩,
    ⟨⟨by decide, by decide⟩, by decide⟩, ⟨⟨by decide, by decide⟩, by decide⟩,
    ⟨by decide, by decide⟩, ⟨by decide, by decide⟩⟩

end HttpCookie
end CuteTorrent
