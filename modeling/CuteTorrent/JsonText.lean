import CuteTorrent.Bencode
import CuteTorrent.Json

/-! `QtJson::serialize`, and what `QtJson::parse` makes of its text. -/
namespace CuteTorrent
namespace Json

def replaced (c : Char) (text s : QString) : QString :=
  s.flatMap fun d => if d = c then text else [d]

def escapes : List (Char × Char) :=
  [('\\', '\\'), ('"', '"'), ('\x08', 'b'), ('\x0c', 'f'), ('\n', 'n'), ('\r', 'r'), ('\t', 't')]

def sanitizeString (s : QString) : QString :=
  '"' :: (escapes.foldl (fun str e => replaced e.1 ['\\', e.2] str) s ++ ['"'])

/-- No separator is put behind what is empty so far. -/
def join {α : Type} (list : List (List α)) (sep : List α) : List α :=
  list.foldl (fun res i => (if res.isEmpty then res else res ++ sep) ++ i) []

def numberText (n : Int) : QByteArray := Bencode.integerToStr n

mutual
def serialize : QVariant → QByteArray
  | .invalid => literal "null"
  | .list values => literal "[ " ++ join (serializeList values) (literal ", ") ++ literal " ]"
  | .map entries => literal "\x7b " ++ join (serializeMap entries) (literal ", ") ++ literal " \x7d"
  | .string s => toUtf8 (sanitizeString s)
  | .bool b => literal (if b then "true" else "false")
  | .int n => numberText n
def serializeList : List QVariant → List QByteArray
  | [] => []
  | v :: values => serialize v :: serializeList values
def serializeMap : List (QString × QVariant) → List QByteArray
  | [] => []
  | (key, v) :: entries =>
    (toUtf8 (sanitizeString key) ++ literal " : " ++ serialize v) :: serializeMap entries
end

/-- `QString::fromUtf8` is given a C string. -/
def serializeStr (v : QVariant) : QString := fromUtf8 (cString (serialize v))

mutual
/-- A value as a `QVariant` of the program holds it: numbers of 64 bits, and the keys of a
map in their order. -/
def Stored : QVariant → Prop
  | .int n => -2 ^ 63 ≤ n ∧ n < 2 ^ 64
  | .list values => StoredList values
  | .map entries => ((Assoc.keys entries).Pairwise fun i j => i ≠ j ∧ ¬ j < i) ∧ StoredMap entries
  | _ => True
def StoredList : List QVariant → Prop
  | [] => True
  | v :: values => Stored v ∧ StoredList values
def StoredMap : List (QString × QVariant) → Prop
  | [] => True
  | (_, v) :: entries => Stored v ∧ StoredMap entries
end

mutual
def Zeroless : QVariant → Prop
  | .string s => Char.ofNat 0 ∉ s
  | .list values => ZerolessList values
  | .map entries => ZerolessMap entries
  | _ => True
def ZerolessList : List QVariant → Prop
  | [] => True
  | v :: values => Zeroless v ∧ ZerolessList values
def ZerolessMap : List (QString × QVariant) → Prop
  | [] => True
  | (key, v) :: entries => Char.ofNat 0 ∉ key ∧ Zeroless v ∧ ZerolessMap entries
end

theorem storedList_iff (values : List QVariant) : StoredList values ↔ ∀ v ∈ values, Stored v := by
  induction values with
  | nil => simp [StoredList]
  | cons v values ih => rw [StoredList, ih, List.forall_mem_cons]

theorem storedMap_iff (entries : List (QString × QVariant)) :
    StoredMap entries ↔ ∀ e ∈ entries, Stored e.2 := by
  induction entries with
  | nil => simp [StoredMap]
  | cons e entries ih => rw [StoredMap, ih, List.forall_mem_cons]

/-! ### The text, before it is encoded -/

def integerText (n : Int) : QString :=
  if n < 0 then '-' :: Bencode.number n.natAbs else Bencode.number n.natAbs

mutual
def text : QVariant → QString
  | .invalid => "null".toList
  | .list values => "[ ".toList ++ join (textList values) ", ".toList ++ " ]".toList
  | .map entries => "\x7b ".toList ++ join (textMap entries) ", ".toList ++ " \x7d".toList
  | .string s => sanitizeString s
  | .bool b => (if b then "true" else "false").toList
  | .int n => integerText n
def textList : List QVariant → List QString
  | [] => []
  | v :: values => text v :: textList values
def textMap : List (QString × QVariant) → List QString
  | [] => []
  | (key, v) :: entries => (sanitizeString key ++ " : ".toList ++ text v) :: textMap entries
end

theorem toUtf8_eq_nil_iff (s : QString) : toUtf8 s = [] ↔ s = [] := by
  constructor
  · intro h
    have hlen := length_le_length_toUtf8 s
    rw [h, List.length_nil] at hlen
    exact List.length_eq_zero_iff.mp (Nat.le_zero.mp hlen)
  · rintro rfl
    rfl

theorem toUtf8_join (list : List QString) (sep : QString) :
    toUtf8 (join list sep) = join (list.map toUtf8) (toUtf8 sep) := by
  have hall : ∀ res : QString, toUtf8 (list.foldl
      (fun res i => (if res.isEmpty then res else res ++ sep) ++ i) res) =
        (list.map toUtf8).foldl
          (fun res i => (if res.isEmpty then res else res ++ toUtf8 sep) ++ i) (toUtf8 res) := by
    induction list with
    | nil => exact fun res => rfl
    | cons i list ih =>
      intro res
      rw [List.foldl_cons, List.map_cons, List.foldl_cons, ih]
      congr 1
      by_cases hres : res = []
      · subst hres
        simp
      · have hbytes : toUtf8 res ≠ [] := mt (toUtf8_eq_nil_iff res).mp hres
        simp [hres, hbytes]
  exact hall []

theorem toUtf8_number (n : Nat) : toUtf8 (Bencode.number n) = Bencode.decimal n := by
  have hall : ∀ bs : QByteArray, (∀ b ∈ bs, Bencode.isDigit b = true) →
      toUtf8 (bs.map fun b => Char.ofNat b.toNat) = bs := by
    intro bs hbs
    induction bs with
    | nil => rfl
    | cons b bs ih =>
      have hb : 48 ≤ b.toNat ∧ b.toNat ≤ 57 := by
        simpa [Bencode.isDigit] using hbs b List.mem_cons_self
      have hdigit : ∀ n < 58, 48 ≤ n → String.utf8EncodeChar (Char.ofNat n) = [UInt8.ofNat n] := by
        decide
      rw [List.map_cons, toUtf8_cons, ih fun c hc => hbs c (List.mem_cons_of_mem _ hc),
        hdigit b.toNat (by omega) hb.1, UInt8.ofNat_toNat]
      rfl
  exact hall _ (Bencode.decimal_isDigit n)

theorem toUtf8_integerText (n : Int) : toUtf8 (integerText n) = numberText n := by
  unfold integerText numberText Bencode.integerToStr
  split_ifs
  · rw [toUtf8_cons, toUtf8_number]
    rfl
  · exact toUtf8_number _

mutual
theorem serialize_eq (v : QVariant) : serialize v = toUtf8 (text v) := by
  cases v with
  | invalid => rfl
  | bool b => rfl
  | int n => exact (toUtf8_integerText n).symm
  | string s => rfl
  | list values =>
    rw [serialize, text, toUtf8_append, toUtf8_append, toUtf8_join, serializeList_eq]
    rfl
  | map entries =>
    rw [serialize, text, toUtf8_append, toUtf8_append, toUtf8_join, serializeMap_eq]
    rfl
theorem serializeList_eq (values : List QVariant) :
    serializeList values = (textList values).map toUtf8 := by
  cases values with
  | nil => rfl
  | cons v values => rw [serializeList, textList, List.map_cons, serialize_eq, serializeList_eq]
theorem serializeMap_eq (entries : List (QString × QVariant)) :
    serializeMap entries = (textMap entries).map toUtf8 := by
  cases entries with
  | nil => rfl
  | cons e entries =>
    obtain ⟨key, v⟩ := e
    rw [serializeMap, textMap, List.map_cons, serialize_eq, serializeMap_eq, toUtf8_append,
      toUtf8_append]
    rfl
end

theorem mem_replaced {a c : Char} {t s : QString} (h : a ∈ replaced c t s) : a ∈ t ∨ a ∈ s := by
  obtain ⟨d, hd, ha⟩ := List.mem_flatMap.mp h
  split_ifs at ha
  · exact .inl ha
  · exact .inr (List.mem_singleton.mp ha ▸ hd)

theorem zero_notMem_sanitizeString {s : QString} (h : Char.ofNat 0 ∉ s) :
    Char.ofNat 0 ∉ sanitizeString s := by
  have hall : ∀ (l : List (Char × Char)), (∀ e ∈ l, Char.ofNat 0 ∉ ['\\', e.2]) → ∀ s : QString,
      Char.ofNat 0 ∉ s → Char.ofNat 0 ∉ l.foldl (fun str e => replaced e.1 ['\\', e.2] str) s := by
    intro l hl
    induction l with
    | nil => exact fun s hs => hs
    | cons e l ih =>
      obtain ⟨he, hl⟩ := List.forall_mem_cons.mp hl
      exact fun s hs => ih hl _ fun hmem => (mem_replaced hmem).elim he hs
  have hquote : Char.ofNat 0 ∉ ['"'] := by decide
  rw [sanitizeString, List.mem_cons, List.mem_append]
  rintro (hzero | hzero | hzero)
  · exact hquote (List.mem_singleton.mpr hzero)
  · exact hall escapes (by decide) s h hzero
  · exact hquote hzero

theorem mem_join {α : Type} {a : α} {list : List (List α)} {sep : List α} (h : a ∈ join list sep) :
    a ∈ sep ∨ ∃ i ∈ list, a ∈ i := by
  have hall : ∀ (list : List (List α)) (res : List α),
      a ∈ list.foldl (fun res i => (if res.isEmpty then res else res ++ sep) ++ i) res →
        a ∈ res ∨ a ∈ sep ∨ ∃ i ∈ list, a ∈ i := by
    intro list
    induction list with
    | nil => exact fun res h => .inl h
    | cons i list ih =>
      intro res h
      rcases ih _ h with hres | hsep | ⟨j, hj, ha⟩
      · dsimp only at hres
        split_ifs at hres
        · rcases List.mem_append.mp hres with hres | hi
          · exact .inl hres
          · exact .inr (.inr ⟨i, List.mem_cons_self, hi⟩)
        · rcases List.mem_append.mp hres with hres | hi
          · exact (List.mem_append.mp hres).imp_right .inl
          · exact .inr (.inr ⟨i, List.mem_cons_self, hi⟩)
      · exact .inr (.inl hsep)
      · exact .inr (.inr ⟨j, List.mem_cons_of_mem _ hj, ha⟩)
  exact (hall list [] h).resolve_left List.not_mem_nil

theorem zero_notMem_integerText (n : Int) : Char.ofNat 0 ∉ integerText n := by
  have hnumber : ∀ m : Nat, Char.ofNat 0 ∉ Bencode.number m := by
    intro m hzero
    exact absurd (Bencode.isDigit_of_mem_number hzero) (by decide)
  unfold integerText
  split_ifs
  · rw [List.mem_cons, not_or]
    exact ⟨by decide, hnumber _⟩
  · exact hnumber _

mutual
theorem zero_notMem_text {v : QVariant} (h : Zeroless v) : Char.ofNat 0 ∉ text v := by
  cases v with
  | invalid => decide
  | bool b => cases b <;> decide
  | int n => exact zero_notMem_integerText n
  | string s => exact zero_notMem_sanitizeString h
  | list values =>
    have hends : Char.ofNat 0 ∉ "[ ".toList ∧ Char.ofNat 0 ∉ " ]".toList ∧ Char.ofNat 0 ∉ ", ".toList := by
      decide
    rw [text, List.mem_append, List.mem_append]
    rintro ((hzero | hzero) | hzero)
    · exact hends.1 hzero
    · rcases mem_join hzero with hsep | ⟨i, hi, hmem⟩
      · exact hends.2.2 hsep
      · exact zero_notMem_textList h i hi hmem
    · exact hends.2.1 hzero
  | map entries =>
    have hends : Char.ofNat 0 ∉ "\x7b ".toList ∧ Char.ofNat 0 ∉ " \x7d".toList ∧ Char.ofNat 0 ∉ ", ".toList := by
      decide
    rw [text, List.mem_append, List.mem_append]
    rintro ((hzero | hzero) | hzero)
    · exact hends.1 hzero
    · rcases mem_join hzero with hsep | ⟨i, hi, hmem⟩
      · exact hends.2.2 hsep
      · exact zero_notMem_textMap h i hi hmem
    · exact hends.2.1 hzero
theorem zero_notMem_textList {values : List QVariant} (h : ZerolessList values) :
    ∀ i ∈ textList values, Char.ofNat 0 ∉ i := by
  cases values with
  | nil => exact fun i hi => absurd hi List.not_mem_nil
  | cons v values =>
    rw [textList, List.forall_mem_cons]
    exact ⟨zero_notMem_text h.1, zero_notMem_textList h.2⟩
theorem zero_notMem_textMap {entries : List (QString × QVariant)} (h : ZerolessMap entries) :
    ∀ i ∈ textMap entries, Char.ofNat 0 ∉ i := by
  cases entries with
  | nil => exact fun i hi => absurd hi List.not_mem_nil
  | cons e entries =>
    obtain ⟨key, v⟩ := e
    have hcolon : Char.ofNat 0 ∉ " : ".toList := by decide
    rw [textMap, List.forall_mem_cons, List.mem_append, List.mem_append]
    refine ⟨?_, zero_notMem_textMap h.2.2⟩
    rintro ((hzero | hzero) | hzero)
    · exact zero_notMem_sanitizeString h.1 hzero
    · exact hcolon hzero
    · exact zero_notMem_text h.2.1 hzero
end

theorem serializeStr_eq {v : QVariant} (h : Zeroless v) : serializeStr v = text v := by
  rw [serializeStr, serialize_eq, cString_toUtf8_eq_self (zero_notMem_text h), fromUtf8_toUtf8]

/-! ### Strings -/

def escapeText (s : QString) : QString := escapes.foldl (fun str e => replaced e.1 ['\\', e.2] str) s

theorem escapeText_append (s t : QString) : escapeText (s ++ t) = escapeText s ++ escapeText t := by
  have hall : ∀ (l : List (Char × Char)) (s t : QString),
      l.foldl (fun str e => replaced e.1 ['\\', e.2] str) (s ++ t) =
        l.foldl (fun str e => replaced e.1 ['\\', e.2] str) s ++
          l.foldl (fun str e => replaced e.1 ['\\', e.2] str) t := by
    intro l
    induction l with
    | nil => exact fun s t => rfl
    | cons e l ih =>
      intro s t
      rw [List.foldl_cons, List.foldl_cons, List.foldl_cons, ← ih, replaced, List.flatMap_append]
      rfl
  exact hall escapes s t

theorem replaced_singleton {c d : Char} (h : d ≠ c) (text : QString) : replaced c text [d] = [d] := by
  simp [replaced, h]

theorem stringLoop_escapeText (c : Char) (rest : QString) :
    stringLoop (escapeText [c] ++ rest) = (stringLoop rest).map fun r => (c :: r.1, r.2) := by
  by_cases hescaped : c ∈ escapes.map Prod.fst
  · have hread : ∀ e ∈ escapes, escapeText [e.1] = ['\\', e.2] ∧ e.2 ≠ 'u' ∧
        escaped e.2 = [e.1] := by decide
    obtain ⟨e, he, rfl⟩ := List.mem_map.mp hescaped
    obtain ⟨htext, hne, hchar⟩ := hread e he
    have hstep := stringLoop.eq_6 e.2 rest (fun _ _ _ _ _ hu _ => hne hu) hne
    rw [htext]
    rw [hchar] at hstep
    exact hstep
  · simp only [escapes, List.map_cons, List.map_nil, List.mem_cons, List.not_mem_nil, or_false,
      not_or] at hescaped
    have hplain : escapeText [c] = [c] := by
      simp [escapeText, escapes, replaced_singleton, hescaped]
    rw [hplain]
    exact stringLoop.eq_7 c rest hescaped.2.1 (fun h _ => hescaped.1 h)
      (fun _ _ _ _ _ h _ => hescaped.1 h) (fun _ h _ => hescaped.1 h) (fun _ _ h _ => hescaped.1 h)

theorem stringLoop_escaped (s rest : QString) :
    stringLoop (escapeText s ++ '"' :: rest) = some (s, rest) := by
  induction s with
  | nil => exact stringLoop.eq_2 rest
  | cons c s ih =>
    have hsplit : escapeText (c :: s) = escapeText [c] ++ escapeText s := escapeText_append [c] s
    rw [hsplit, List.append_assoc, stringLoop_escapeText, ih]
    rfl

theorem parseString_sanitizeString (s rest : QString) :
    parseString (sanitizeString s ++ rest) = some (s, rest) := by
  have htext : sanitizeString s ++ rest = '"' :: (escapeText s ++ '"' :: rest) := by
    simp [sanitizeString, escapeText]
  rw [htext, parseString]
  exact stringLoop_escaped s rest

/-! ### Numbers -/

def Stops (rest : QString) : Prop := ∀ c, rest.head? = some c → isNumberChar c = false

theorem takeWhile_append_stops {s rest : QString} (h : ∀ c ∈ s, isNumberChar c = true)
    (hrest : Stops rest) :
    (s ++ rest).takeWhile isNumberChar = s ∧ (s ++ rest).dropWhile isNumberChar = rest := by
  have hstop : rest.takeWhile isNumberChar = [] ∧ rest.dropWhile isNumberChar = rest := by
    cases rest with
    | nil => exact ⟨rfl, rfl⟩
    | cons c rest =>
      have hc := hrest c rfl
      rw [List.takeWhile_cons, List.dropWhile_cons, hc]
      exact ⟨rfl, rfl⟩
  constructor
  · rw [List.takeWhile_append_of_pos h, hstop.1, List.append_nil]
  · rw [List.dropWhile_append_of_pos h, hstop.2]

theorem isDigit_ne_punctuation {c : Char} (h : c.isDigit = true) :
    c ≠ '-' ∧ c ≠ '.' ∧ c ∉ " \t\n\r".toList ∧ Assoc.find c punctuation = none := by
  have hrange : 48 ≤ c.toNat ∧ c.toNat ≤ 57 := by
    simpa [Char.isDigit, UInt32.le_iff_toNat_le] using h
  have hall : ∀ n < 58, 48 ≤ n → Char.ofNat n ≠ '-' ∧ Char.ofNat n ≠ '.' ∧
      Char.ofNat n ∉ " \t\n\r".toList ∧ Assoc.find (Char.ofNat n) punctuation = none := by decide
  rw [← Char.ofNat_toNat c]
  exact hall c.toNat (by omega) hrange.1

theorem isNumberChar_of_mem_number {n : Nat} {c : Char} (h : c ∈ Bencode.number n) :
    isNumberChar c = true :=
  isNumberChar_of_isDigit (Bencode.isDigit_of_mem_number h)

theorem isNumberChar_of_mem_integerText {n : Int} {c : Char} (h : c ∈ integerText n) :
    isNumberChar c = true := by
  unfold integerText at h
  split_ifs at h
  · rcases List.mem_cons.mp h with rfl | hc
    · decide
    · exact isNumberChar_of_mem_number hc
  · exact isNumberChar_of_mem_number h

theorem wholeNumber_integerText {n : Int} (h : -2 ^ 63 ≤ n ∧ n < 2 ^ 64) :
    wholeNumber (integerText n) = .int n := by
  have hall : (Bencode.number n.natAbs).all Char.isDigit = true :=
    List.all_eq_true.mpr fun c => Bencode.isDigit_of_mem_number
  have hne := Bencode.number_ne_nil n.natAbs
  unfold wholeNumber integerText
  by_cases hneg : n < 0
  · rw [if_pos hneg]
    simp only [List.head?_cons, List.tail_cons, if_true]
    rw [if_pos ⟨hne, hall⟩, Bencode.decimalValue_number, if_pos (by omega)]
    congr 1
    omega
  · have hhead : ¬ (Bencode.number n.natAbs).head? = some '-' := fun he =>
      (isDigit_ne_punctuation (Bencode.isDigit_of_mem_number (List.mem_of_head? he))).1 rfl
    rw [if_neg hneg]
    simp only [if_neg hhead]
    rw [if_pos ⟨hne, hall⟩, Bencode.decimalValue_number, if_pos (by omega)]
    congr 1
    omega

theorem head_integerText (n : Int) : ∃ c t, integerText n = c :: t ∧
    (c.isDigit = true ∨ c = '-') := by
  unfold integerText
  split_ifs
  · exact ⟨'-', _, rfl, .inr rfl⟩
  · obtain ⟨c, t, ht⟩ := List.exists_cons_of_ne_nil (Bencode.number_ne_nil n.natAbs)
    exact ⟨c, t, ht, .inl (Bencode.isDigit_of_mem_number (ht ▸ List.mem_cons_self))⟩

theorem eatWhitespace_cons {c : Char} (h : c ∉ " \t\n\r".toList) (s : QString) :
    eatWhitespace (c :: s) = c :: s := by
  rw [eatWhitespace, List.dropWhile_cons, if_neg (by simpa using h)]

theorem nextToken_integerText (n : Int) (rest : QString) :
    ∃ t, nextToken (integerText n ++ rest) = (.number, t) := by
  obtain ⟨c, t, htext, hc⟩ := head_integerText n
  have hspace : c ∉ " \t\n\r".toList ∧ Assoc.find c punctuation = none := by
    rcases hc with hdigit | rfl
    · exact (isDigit_ne_punctuation hdigit).2.2
    · decide
  refine ⟨t ++ rest, ?_⟩
  rw [htext, List.cons_append, nextToken, eatWhitespace_cons hspace.1]
  simp only [hspace.2, hc, if_true]

section
variable [QtDouble]

theorem parseNumber_integerText {n : Int} (h : -2 ^ 63 ≤ n ∧ n < 2 ^ 64) {rest : QString}
    (hrest : Stops rest) : parseNumber (integerText n ++ rest) = (.int n, rest) := by
  have hchars : ∀ c ∈ integerText n, isNumberChar c = true :=
    fun c => isNumberChar_of_mem_integerText
  have hpoint : '.' ∉ integerText n := by
    intro hm
    unfold integerText at hm
    split_ifs at hm
    · rcases List.mem_cons.mp hm with he | hm
      · exact absurd he (by decide)
      · exact (isDigit_ne_punctuation (Bencode.isDigit_of_mem_number hm)).2.1 rfl
    · exact (isDigit_ne_punctuation (Bencode.isDigit_of_mem_number hm)).2.1 rfl
  obtain ⟨c, t, htext, hc⟩ := head_integerText n
  have heat : eatWhitespace (integerText n ++ rest) = integerText n ++ rest := by
    rw [htext, List.cons_append]
    refine eatWhitespace_cons ?_ _
    rcases hc with hdigit | rfl
    · exact (isDigit_ne_punctuation hdigit).2.2.1
    · decide
  obtain ⟨htake, hdrop⟩ := takeWhile_append_stops hchars hrest
  rw [parseNumber, heat, htake, hdrop]
  simp only [if_neg hpoint, wholeNumber_integerText h]

end

/-! ### Values -/

theorem join_cons {α : Type} {t : List α} (ht : t ≠ []) (ts : List (List α)) (sep : List α) :
    join (t :: ts) sep = t ++ ts.flatMap (sep ++ ·) := by
  have hall : ∀ (ts : List (List α)) (res : List α), res ≠ [] →
      ts.foldl (fun res i => (if res.isEmpty then res else res ++ sep) ++ i) res =
        res ++ ts.flatMap (sep ++ ·) := by
    intro ts
    induction ts with
    | nil => exact fun res _ => (List.append_nil res).symm
    | cons t ts ih =>
      intro res hres
      have hgoes : (if res.isEmpty then res else res ++ sep) ++ t = res ++ sep ++ t := by
        simp [hres]
      rw [List.foldl_cons, hgoes, ih _ (by simp [hres])]
      simp
  exact hall ts t ht

def tokenOf : QVariant → JsonToken
  | .invalid => .null
  | .bool b => if b then .true else .false
  | .int _ => .number
  | .string _ => .string
  | .list _ => .squaredOpen
  | .map _ => .curlyOpen

theorem lookAhead_text (v : QVariant) (rest : QString) : lookAhead (text v ++ rest) = tokenOf v := by
  cases v with
  | invalid => rfl
  | bool b => cases b <;> rfl
  | int n =>
    obtain ⟨t, htoken⟩ := nextToken_integerText n rest
    rw [text, lookAhead, htoken]
    rfl
  | string s => rfl
  | list values => rfl
  | map entries => rfl

theorem tokenOf_starts (v : QVariant) : tokenOf v ≠ .none ∧ tokenOf v ≠ .comma ∧
    tokenOf v ≠ .curlyClose ∧ tokenOf v ≠ .squaredClose := by
  cases v with
  | bool b => cases b <;> decide
  | _ => simp [tokenOf]

theorem text_ne_nil (v : QVariant) : text v ≠ [] := by
  intro hnil
  have hlook := lookAhead_text v []
  rw [hnil] at hlook
  exact (tokenOf_starts v).1 hlook.symm

section loops
variable {value : QString → Option (QVariant × QString)} {v : QVariant}

theorem parseArray_value {s t : QString} (hvalue : value (' ' :: (text v ++ s)) = some (v, t))
    (n : Nat) : parseArray value (n + 1) (' ' :: (text v ++ s)) =
      (parseArray value n t).map fun r => (v :: r.1, r.2) := by
  have hlook : lookAhead (' ' :: (text v ++ s)) = tokenOf v := lookAhead_text v s
  obtain ⟨hnone, hcomma, -, hclose⟩ := tokenOf_starts v
  rw [parseArray, hlook, if_neg hnone, if_neg hcomma, if_neg hclose, hvalue]
  simp only [Option.bind_eq_bind, Option.bind_some]
  cases parseArray value n t <;> rfl

theorem parseObject_value {key s t : QString}
    (hvalue : value (' ' :: (text v ++ s)) = some (v, t)) (n : Nat)
    (entries : List (QString × QVariant)) :
    parseObject value (n + 1) entries
        (' ' :: (sanitizeString key ++ " : ".toList ++ (text v ++ s))) =
      parseObject value n (Assoc.insert key v entries) t := by
  have htext : ' ' :: (sanitizeString key ++ " : ".toList ++ (text v ++ s)) =
      ' ' :: (sanitizeString key ++ ' ' :: ':' :: ' ' :: (text v ++ s)) := by simp
  have hlook : lookAhead (' ' :: (sanitizeString key ++ ' ' :: ':' :: ' ' :: (text v ++ s))) =
    .string := rfl
  have hname : parseString (' ' :: (sanitizeString key ++ ' ' :: ':' :: ' ' :: (text v ++ s))) =
      some (key, ' ' :: ':' :: ' ' :: (text v ++ s)) :=
    parseString_sanitizeString key (' ' :: ':' :: ' ' :: (text v ++ s))
  have hcolon : lookAhead (' ' :: ':' :: ' ' :: (text v ++ s)) = .colon := rfl
  have hnext : (nextToken (' ' :: ':' :: ' ' :: (text v ++ s))).2 = ' ' :: (text v ++ s) := rfl
  rw [htext, parseObject, hlook, if_neg (by decide), if_neg (by decide), if_neg (by decide), hname]
  simp only [Option.bind_eq_bind, Option.bind_some, hcolon, if_true, hnext, hvalue]

def listRest (values : List QVariant) : QString :=
  (textList values).flatMap (", ".toList ++ ·) ++ " ]".toList

def mapRest (entries : List (QString × QVariant)) : QString :=
  (textMap entries).flatMap (", ".toList ++ ·) ++ " \x7d".toList

theorem stops_listRest (values : List QVariant) (rest : QString) : Stops (listRest values ++ rest) := by
  cases values with
  | nil =>
    intro c hc
    cases hc
    decide
  | cons v values =>
    intro c hc
    cases hc
    decide

theorem stops_mapRest (entries : List (QString × QVariant)) (rest : QString) :
    Stops (mapRest entries ++ rest) := by
  cases entries with
  | nil =>
    intro c hc
    cases hc
    decide
  | cons e entries =>
    intro c hc
    cases hc
    decide

theorem listRest_cons (v : QVariant) (values : List QVariant) (rest : QString) :
    listRest (v :: values) ++ rest = ',' :: ' ' :: (text v ++ (listRest values ++ rest)) := by
  simp [listRest, textList]

theorem mapRest_cons (key : QString) (v : QVariant) (entries : List (QString × QVariant))
    (rest : QString) : mapRest ((key, v) :: entries) ++ rest =
      ',' :: ' ' :: (sanitizeString key ++ " : ".toList ++ (text v ++ (mapRest entries ++ rest))) := by
  simp [mapRest, textMap]

theorem text_list_cons (v : QVariant) (values : List QVariant) (rest : QString) :
    text (.list (v :: values)) ++ rest = '[' :: ' ' :: (text v ++ (listRest values ++ rest)) := by
  rw [text, textList, join_cons (text_ne_nil v)]
  simp [listRest]

theorem text_map_cons (key : QString) (v : QVariant) (entries : List (QString × QVariant))
    (rest : QString) : text (.map ((key, v) :: entries)) ++ rest =
      '{' :: ' ' :: (sanitizeString key ++ " : ".toList ++ (text v ++ (mapRest entries ++ rest))) := by
  rw [text, textMap, join_cons (by simp [sanitizeString])]
  simp [mapRest]

theorem parseArray_comma (value : QString → Option (QVariant × QString)) (n : Nat) (s : QString) :
    parseArray value (n + 1) (',' :: s) = parseArray value n s := rfl

theorem parseArray_end (value : QString → Option (QVariant × QString)) (n : Nat) (rest : QString) :
    parseArray value (n + 1) (" ]".toList ++ rest) = some ([], rest) := rfl

theorem parseObject_comma (value : QString → Option (QVariant × QString)) (n : Nat)
    (entries : List (QString × QVariant)) (s : QString) :
    parseObject value (n + 1) entries (',' :: s) = parseObject value n entries s := rfl

theorem parseObject_end (value : QString → Option (QVariant × QString)) (n : Nat)
    (entries : List (QString × QVariant)) (rest : QString) :
    parseObject value (n + 1) entries (" \x7d".toList ++ rest) = some (entries, rest) := rfl

end loops

section
variable [QtDouble]

theorem parseValue_space (fuel : Nat) (s : QString) : parseValue fuel (' ' :: s) = parseValue fuel s := by
  cases fuel with
  | zero => rfl
  | succ fuel => rfl

mutual
theorem parseValue_text (v : QVariant) (h : Stored v) {rest : QString} (hrest : Stops rest)
    {fuel : Nat} (hfuel : (text v ++ rest).length ≤ fuel) :
    parseValue fuel (text v ++ rest) = some (v, rest) := by
  obtain ⟨fuel, rfl⟩ : ∃ n, fuel = n + 1 := by
    have hpos := List.length_pos_iff.mpr (text_ne_nil v)
    rw [List.length_append] at hfuel
    exact ⟨fuel - 1, by omega⟩
  have hlook := lookAhead_text v rest
  cases v with
  | invalid => rfl
  | bool b => cases b <;> rfl
  | int n =>
    rw [Stored] at h
    rw [parseValue, hlook]
    exact congrArg some (parseNumber_integerText h hrest)
  | string s =>
    rw [parseValue, hlook]
    exact congrArg (Option.map _) (parseString_sanitizeString s rest)
  | list values =>
    rw [Stored] at h
    cases values with
    | nil => rfl
    | cons v values =>
      obtain ⟨hv, hvalues⟩ := h
      rw [text_list_cons] at hlook hfuel ⊢
      simp only [List.length_cons, List.length_append] at hfuel
      have hvalue : parseValue fuel (' ' :: (text v ++ (listRest values ++ rest))) =
          some (v, listRest values ++ rest) := by
        rw [parseValue_space]
        refine parseValue_text v hv (stops_listRest values rest) ?_
        simp only [List.length_append]
        omega
      have hnext := parseArray_textList values hvalues rest fuel
        (text v ++ (listRest values ++ rest)).length
        (by rw [List.length_append]; omega) (by simp only [List.length_append]; omega)
      have harray : parseArray (parseValue fuel)
          (' ' :: (text v ++ (listRest values ++ rest))).length
          (' ' :: (text v ++ (listRest values ++ rest))) = some (v :: values, rest) := by
        rw [List.length_cons, parseArray_value hvalue, hnext]
        rfl
      rw [parseValue, hlook]
      exact congrArg (Option.map _) harray
  | map entries =>
    rw [Stored] at h
    cases entries with
    | nil => rfl
    | cons e entries =>
      obtain ⟨key, v⟩ := e
      obtain ⟨hordered, hv, hentries⟩ := h
      rw [text_map_cons] at hlook hfuel ⊢
      simp only [List.length_cons, List.length_append] at hfuel
      have hvalue : parseValue fuel (' ' :: (text v ++ (mapRest entries ++ rest))) =
          some (v, mapRest entries ++ rest) := by
        rw [parseValue_space]
        refine parseValue_text v hv (stops_mapRest entries rest) ?_
        simp only [List.length_append]
        omega
      have hnext := parseObject_textMap entries hentries rest [(key, v)] fuel
        (sanitizeString key ++ " : ".toList ++ (text v ++ (mapRest entries ++ rest))).length
        (by rw [List.length_append]; omega) (by simp only [List.length_append]; omega)
      have hobject : parseObject (parseValue fuel)
          (' ' :: (sanitizeString key ++ " : ".toList ++ (text v ++ (mapRest entries ++ rest)))).length
          [] (' ' :: (sanitizeString key ++ " : ".toList ++ (text v ++ (mapRest entries ++ rest)))) =
            some ((key, v) :: entries, rest) := by
        rw [List.length_cons, parseObject_value hvalue]
        refine hnext.trans ?_
        rw [Assoc.foldl_insert_of_pairwise hordered]
        rfl
      rw [parseValue, hlook]
      exact congrArg (Option.map _) hobject

theorem parseArray_textList (values : List QVariant) (h : StoredList values) (rest : QString)
    (fuel n : Nat) (hfuel : (listRest values ++ rest).length ≤ fuel)
    (hn : (listRest values ++ rest).length ≤ n) :
    parseArray (parseValue fuel) n (listRest values ++ rest) = some (values, rest) := by
  cases values with
  | nil =>
    obtain ⟨n, rfl⟩ : ∃ m, n = m + 1 := ⟨n - 1, by simp [listRest] at hn; omega⟩
    exact parseArray_end _ n rest
  | cons v values =>
    obtain ⟨hv, hvalues⟩ := h
    rw [listRest_cons] at hfuel hn ⊢
    simp only [List.length_cons, List.length_append] at hfuel hn
    obtain ⟨n, rfl⟩ : ∃ m, n = m + 2 := ⟨n - 2, by omega⟩
    have hvalue : parseValue fuel (' ' :: (text v ++ (listRest values ++ rest))) =
        some (v, listRest values ++ rest) := by
      rw [parseValue_space]
      refine parseValue_text v hv (stops_listRest values rest) ?_
      simp only [List.length_append]
      omega
    have hnext := parseArray_textList values hvalues rest fuel n
      (by rw [List.length_append]; omega) (by rw [List.length_append]; omega)
    rw [parseArray_comma, parseArray_value hvalue, hnext]
    rfl

theorem parseObject_textMap (entries : List (QString × QVariant)) (h : StoredMap entries)
    (rest : QString) (before : List (QString × QVariant)) (fuel n : Nat)
    (hfuel : (mapRest entries ++ rest).length ≤ fuel) (hn : (mapRest entries ++ rest).length ≤ n) :
    parseObject (parseValue fuel) n before (mapRest entries ++ rest) =
      some (entries.foldl (fun m p => Assoc.insert p.1 p.2 m) before, rest) := by
  cases entries with
  | nil =>
    obtain ⟨n, rfl⟩ : ∃ m, n = m + 1 := ⟨n - 1, by simp [mapRest] at hn; omega⟩
    exact parseObject_end _ n before rest
  | cons e entries =>
    obtain ⟨key, v⟩ := e
    obtain ⟨hv, hentries⟩ := h
    rw [mapRest_cons] at hfuel hn ⊢
    simp only [List.length_cons, List.length_append] at hfuel hn
    obtain ⟨n, rfl⟩ : ∃ m, n = m + 2 := ⟨n - 2, by omega⟩
    have hvalue : parseValue fuel (' ' :: (text v ++ (mapRest entries ++ rest))) =
        some (v, mapRest entries ++ rest) := by
      rw [parseValue_space]
      refine parseValue_text v hv (stops_mapRest entries rest) ?_
      simp only [List.length_append]
      omega
    rw [parseObject_comma, parseObject_value hvalue]
    exact parseObject_textMap entries hentries rest _ fuel n (by rw [List.length_append]; omega)
      (by rw [List.length_append]; omega)
end

theorem parse_text {v : QVariant} (h : Stored v) : parse (text v) = (v, true) := by
  have hend : Stops [] := fun c hc => by cases hc
  have hvalue := parseValue_text v h hend (Nat.le_refl _)
  rw [List.append_nil] at hvalue
  rw [parse, hvalue]

/-- What the program writes as JSON it reads as the value it was, unless a text of it is cut
at a zero. -/
theorem parse_serializeStr {v : QVariant} (h : Stored v) (hzero : Zeroless v) :
    parse (serializeStr v) = (v, true) := by
  rw [serializeStr_eq hzero, parse_text h]

end

theorem parse_serializeStr_settings :
    @parse ⟨.string⟩ (serializeStr (.map [("groups".toList, .list [.string "a\"b\\".toList, .invalid]),
      ("port".toList, .int (-1))])) = (.map [("groups".toList, .list [.string "a\"b\\".toList, .invalid]),
        ("port".toList, .int (-1))], true) :=
  @parse_serializeStr ⟨.string⟩ _
    ⟨by decide, ⟨trivial, trivial, trivial⟩, (by constructor <;> decide), trivial⟩
    ⟨by decide, ⟨(by decide : Char.ofNat 0 ∉ "a\"b\\".toList), trivial, trivial⟩, by decide, trivial, trivial⟩

end Json
end CuteTorrent
