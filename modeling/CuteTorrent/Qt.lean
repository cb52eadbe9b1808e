import Mathlib.Algebra.Group.Int.Defs
import Mathlib.Algebra.Group.Nat.Defs
import Mathlib.Data.List.Sort
import Mathlib.Data.List.TakeWhile
import CuteTorrent.Library.TextCodec

/-! The Qt and C++ string conversions the client relies on, for both of the
platforms it is built for. -/
namespace CuteTorrent

abbrev QString := List Char
abbrev QByteArray := List UInt8

instance : LawfulBEq QString := inferInstance

/-- What ends a call without a result: a null or dangling access, a container
access out of range, a read behind the end of a buffer, an escaping
`libtorrent::type_error`. -/
inductive Fault where
  | nullPointer
  | indexOutOfRange
  | readPastEnd
  | typeError
  | noMetadata
deriving DecidableEq, Repr

theorem bind_eq_ok {ε α β : Type} {x : Except ε α} {f : α → Except ε β} {r : β}
    (h : x >>= f = .ok r) : ∃ a, x = .ok a ∧ f a = .ok r := by
  cases x with
  | error e => simp [Bind.bind, Except.bind] at h
  | ok a => exact ⟨a, rfl, h⟩

theorem bind_eq_error {ε α β : Type} {x : Except ε α} {f : α → Except ε β} {e : ε}
    (h : x >>= f = .error e) : x = .error e ∨ ∃ a, x = .ok a ∧ f a = .error e := by
  cases x with
  | error e' =>
    cases h
    exact .inl rfl
  | ok a => exact .inr ⟨a, rfl, h⟩

inductive Platform where
  | windows
  | unix
deriving DecidableEq, Repr

namespace Platform

def separator : Platform → Char
  | windows => '\\'
  | unix => '/'

def toNativeSeparators (p : Platform) (s : QString) : QString :=
  match p with
  | windows => s.map fun c => if c = '/' then '\\' else c
  | unix => s

theorem toNativeSeparators_idem (p : Platform) (s : QString) :
    p.toNativeSeparators (p.toNativeSeparators s) = p.toNativeSeparators s := by
  cases p with
  | unix => rfl
  | windows =>
    simp only [toNativeSeparators, List.map_map]
    apply List.map_congr_left
    intro c _
    by_cases hc : c = '/'
    · simp [hc]
    · simp [hc]

/-- The codec for C strings is UTF-8 on both platforms: the window's constructor sets
it before the session starts. -/
def fromStdString (_ : Platform) (s : QByteArray) : QString := fromUtf8 s

def toStdString (_ : Platform) (s : QString) : QByteArray := toUtf8 s

end Platform

/-- The bytes of a literal in the source. -/
def literal (s : String) : QByteArray := toUtf8 s.toList

/-- A `char const*` ends at the first zero byte. -/
def cString (s : QByteArray) : QByteArray := s.takeWhile fun b => decide (b ≠ 0)

/-- `QString(char const*)` -/
def Platform.fromCString (p : Platform) (s : QByteArray) : QString := p.fromStdString (cString s)

theorem cString_eq_self_iff (s : QByteArray) : cString s = s ↔ ∀ b ∈ s, b ≠ 0 := by
  simp [cString, List.takeWhile_eq_self_iff]

theorem length_cString_eq_iff (s : QByteArray) : (cString s).length = s.length ↔ ∀ b ∈ s, b ≠ 0 := by
  rw [← cString_eq_self_iff]
  constructor
  · exact (List.takeWhile_prefix _).eq_of_length
  · exact congrArg List.length

@[simp] theorem cString_nil : cString [] = [] := rfl

theorem cString_toUtf8 (s : QString) :
    cString (toUtf8 s) = toUtf8 (s.takeWhile fun c => decide (c ≠ Char.ofNat 0)) := by
  induction s with
  | nil => rfl
  | cons c s ih =>
    rw [toUtf8_cons, cString]
    by_cases hc : c = Char.ofNat 0
    · subst hc
      rfl
    · have hbytes : ∀ b ∈ String.utf8EncodeChar c, decide (b ≠ 0) = true := by
        intro b hb
        rw [decide_eq_true_eq]
        apply ne_zero_of_mem_toUtf8 (s := [c]) _ (by simpa using hb)
        simpa using Ne.symm hc
      rw [List.takeWhile_append_of_pos hbytes, List.takeWhile_cons, if_pos (by simp [hc]), toUtf8_cons,
        ← ih, cString]

theorem cString_toUtf8_eq_self {s : QString} (h : Char.ofNat 0 ∉ s) :
    cString (toUtf8 s) = toUtf8 s :=
  (cString_eq_self_iff _).mpr fun _ hb => ne_zero_of_mem_toUtf8 h hb

namespace Platform
variable (p : Platform)

@[simp] theorem fromStdString_toStdString (s : QString) : p.fromStdString (p.toStdString s) = s :=
  fromUtf8_toUtf8 s

@[simp] theorem fromStdString_toUtf8 (s : QString) : p.fromStdString (toUtf8 s) = s :=
  fromUtf8_toUtf8 s

theorem fromCString_toUtf8 {s : QString} (h : Char.ofNat 0 ∉ s) : p.fromCString (toUtf8 s) = s := by
  rw [fromCString, cString_toUtf8_eq_self h, fromStdString_toUtf8]

@[simp] theorem toStdString_nil : p.toStdString [] = [] := rfl

end Platform

theorem not_mem_of_mem_splitOn {sep : Char} {s n : QString} (h : n ∈ s.splitOn sep) : sep ∉ n := by
  induction s generalizing n with
  | nil =>
    rw [List.splitOn_nil, List.mem_singleton] at h
    simp [h]
  | cons c s ih =>
    rw [List.splitOn_cons_eq_if_modifyHead] at h
    obtain ⟨m, ms, hms⟩ := List.exists_cons_of_ne_nil (List.splitOn_ne_nil sep s)
    rw [hms] at h ih
    split_ifs at h with hc
    · cases List.mem_cons.mp h with
      | inl heq =>
        subst heq
        simp
      | inr h => exact ih h
    · rw [List.modifyHead_cons] at h
      cases List.mem_cons.mp h with
      | inl heq =>
        subst heq
        have hne : ¬ sep = c := fun he => hc (by simp [he])
        have hm : sep ∉ m := ih (by simp)
        simp [hne, hm]
      | inr h => exact ih (by simp [h])

def isSpace (c : Char) : Bool :=
  let n := c.toNat
  decide (9 ≤ n ∧ n ≤ 13) || decide (0x2000 ≤ n ∧ n ≤ 0x200A) ||
    decide (n ∈ [0x20, 0x85, 0xA0, 0x1680, 0x180E, 0x2028, 0x2029, 0x202F, 0x205F, 0x3000])

theorem isSpace_of_isDigit {c : Char} (h : c.isDigit = true) : isSpace c = false := by
  have hlo : 48 ≤ c.toNat ∧ c.toNat ≤ 57 := by
    simpa [Char.isDigit, UInt32.le_iff_toNat_le] using h
  simp only [isSpace, Bool.or_eq_false_iff, decide_eq_false_iff_not, List.mem_cons, not_or,
    List.not_mem_nil, not_false_eq_true, and_true]
  omega

def trimmed (s : QString) : QString := ((s.dropWhile isSpace).reverse.dropWhile isSpace).reverse

theorem trimmed_eq_self {s : QString} (h : ∀ c ∈ s, isSpace c = false) : trimmed s = s := by
  have hdrop : ∀ l : QString, (∀ c ∈ l, isSpace c = false) → l.dropWhile isSpace = l := by
    intro l hl
    cases l with
    | nil => rfl
    | cons c l => rw [List.dropWhile_cons, if_neg (by simp [hl c])]
  rw [trimmed, hdrop s h, hdrop _ (fun c hc => h c (List.mem_reverse.mp hc)), List.reverse_reverse]

def replaceChar (before : Char) (after : QString) (s : QString) : QString :=
  s.flatMap fun c => if c = before then after else [c]

theorem replaceChar_of_not_mem {before : Char} (after : QString) {s : QString} (h : before ∉ s) :
    replaceChar before after s = s := by
  induction s with
  | nil => rfl
  | cons c s ih =>
    have hc : c ≠ before := fun he => h (by simp [he])
    have hs : before ∉ s := fun hm => h (List.mem_cons_of_mem _ hm)
    rw [replaceChar, List.flatMap_cons, if_neg hc]
    exact congrArg (c :: ·) (ih hs)

/-- Characters that are replaced one by one, with the separators left alone, are
replaced in the parts between them. -/
theorem splitOn_flatMap {sep : Char} {f : Char → QString} (hsep : f sep = [sep])
    (hf : ∀ c, c ≠ sep → sep ∉ f c) (s : QString) :
    (s.flatMap f).splitOn sep = (s.splitOn sep).map (List.flatMap f) := by
  induction s with
  | nil => rfl
  | cons c s ih =>
    obtain ⟨t, ts, hts⟩ := List.exists_cons_of_ne_nil (List.splitOn_ne_nil sep s)
    rw [hts, List.map_cons] at ih
    rw [List.flatMap_cons, List.splitOn_cons_eq_if_modifyHead, hts]
    by_cases hc : c = sep
    · subst hc
      rw [hsep, List.singleton_append, List.splitOn_cons_eq_if_modifyHead, ih]
      simp
    · have hglue : ∀ pre : QString, sep ∉ pre →
          (pre ++ s.flatMap f).splitOn sep = (pre ++ t.flatMap f) :: ts.map (List.flatMap f) := by
        intro pre hpre
        induction pre with
        | nil => exact ih
        | cons d pre ihp =>
          have hd : d ≠ sep := fun he => hpre (by simp [he])
          rw [List.cons_append, List.splitOn_cons_eq_if_modifyHead,
            ihp fun hm => hpre (List.mem_cons_of_mem _ hm)]
          simp [hd]
      rw [hglue (f c) (hf c hc)]
      simp [hc]

theorem splitOn_replaceChar {sep before : Char} {after : QString} (hsep : sep ≠ before)
    (hafter : sep ∉ after) (s : QString) :
    (replaceChar before after s).splitOn sep = (s.splitOn sep).map (replaceChar before after) := by
  refine splitOn_flatMap (if_neg hsep) (fun c hc => ?_) s
  by_cases hb : c = before
  · rw [if_pos hb]
    exact hafter
  · rw [if_neg hb, List.mem_singleton]
    exact Ne.symm hc

theorem append_cons_cancel {α : Type*} [DecidableEq α] {sep : α} {s s' t t' : List α} (hs : sep ∉ s)
    (hs' : sep ∉ s') (h : s ++ sep :: t = s' ++ sep :: t') : s = s' ∧ t = t' := by
  have hsplit := congrArg (List.splitOn sep) h
  rw [List.splitOn_append_cons_self_of_not_mem hs, List.splitOn_append_cons_self_of_not_mem hs'] at hsplit
  obtain ⟨rfl, -⟩ := List.cons.inj hsplit
  exact ⟨rfl, (List.cons.inj (List.append_cancel_left h)).2⟩

theorem mem_intercalate {sep c : Char} {parts : List QString} (h : c ∈ [sep].intercalate parts) :
    c = sep ∨ ∃ t ∈ parts, c ∈ t := by
  induction parts with
  | nil => exact absurd h (by simp)
  | cons t ts ih =>
    cases ts with
    | nil => exact .inr ⟨t, by simp, by simpa using h⟩
    | cons u ts =>
      rw [List.intercalate_cons_cons, List.mem_append, List.mem_append, List.mem_singleton] at h
      rcases h with (h | h) | h
      · exact .inr ⟨t, by simp, h⟩
      · exact .inl h
      · obtain h | ⟨v, hv, hc⟩ := ih h
        · exact .inl h
        · exact .inr ⟨v, List.mem_cons_of_mem _ hv, hc⟩

theorem splitOn_intercalate_flatMap (sep : Char) {parts : List QString} (h : parts ≠ []) :
    ([sep].intercalate parts).splitOn sep = parts.flatMap (List.splitOn sep) := by
  induction parts with
  | nil => exact absurd rfl h
  | cons t ts ih =>
    cases ts with
    | nil => simp
    | cons u ts =>
      rw [List.intercalate_cons_cons, List.append_assoc, List.singleton_append,
        List.splitOn_append_cons_self, ih (by simp)]
      rfl

theorem infix_of_mem_splitOn {sep : Char} {s t : QString} (ht : t ∈ s.splitOn sep) : t <:+: s := by
  have hs : [sep].intercalate (s.splitOn sep) = s := List.intercalate_splitOn sep
  rw [← hs]
  generalize s.splitOn sep = parts at ht
  clear hs
  induction parts with
  | nil => exact absurd ht List.not_mem_nil
  | cons u us ih =>
    cases us with
    | nil => simp [List.mem_singleton.mp ht]
    | cons v us =>
      rw [List.intercalate_cons_cons]
      rcases List.mem_cons.mp ht with rfl | ht
      · exact ((List.prefix_append t [sep]).trans (List.prefix_append _ _)).isInfix
      · exact (ih ht).trans (List.suffix_append _ _).isInfix

theorem mem_of_mem_part {sep c : Char} {s t : QString} (hc : c ∈ t) (ht : t ∈ s.splitOn sep) :
    c ∈ s := (infix_of_mem_splitOn ht).subset hc

theorem mem_of_mem_splitOn {sep c : Char} {s : QString} (hc : c ∈ s) (hsep : c ≠ sep) :
    ∃ t ∈ s.splitOn sep, c ∈ t := by
  have hs : [sep].intercalate (s.splitOn sep) = s := List.intercalate_splitOn sep
  rw [← hs] at hc
  generalize s.splitOn sep = parts at hc
  induction parts with
  | nil => exact absurd hc (by simp)
  | cons t ts ih =>
    cases ts with
    | nil => exact ⟨t, by simp, by simpa using hc⟩
    | cons u ts =>
      rw [List.intercalate_cons_cons] at hc
      cases List.mem_append.mp hc with
      | inl hc =>
        cases List.mem_append.mp hc with
        | inl hc => exact ⟨t, by simp, hc⟩
        | inr hc => exact absurd (List.mem_singleton.mp hc) hsep
      | inr hc =>
        obtain ⟨v, hv, hcv⟩ := ih hc
        exact ⟨v, List.mem_cons_of_mem _ hv, hcv⟩

def decimalValue (digits : QString) : Nat := digits.foldl (fun n c => 10 * n + (c.toNat - 48)) 0

/-- `QString::toInt`; none where it is not ok. -/
def toInt (s : QString) : Option Int :=
  let signed := trimmed s
  let digits := match signed with
    | '-' :: t => t
    | '+' :: t => t
    | t => t
  if digits ≠ [] ∧ digits.all Char.isDigit then
    let n : Int := if signed.head? = some '-' then -decimalValue digits else decimalValue digits
    if -2 ^ 31 ≤ n ∧ n < 2 ^ 31 then some n else none
  else none

theorem toInt_of_digits {s : QString} (hne : s ≠ []) (hdigits : ∀ c ∈ s, c.isDigit = true)
    (hlt : decimalValue s < 2 ^ 31) : toInt s = some (decimalValue s : Int) := by
  obtain ⟨c, t, rfl⟩ := List.exists_cons_of_ne_nil hne
  have hc := hdigits c List.mem_cons_self
  have hminus : c ≠ '-' := by
    rintro rfl
    exact absurd hc (by decide)
  have hplus : c ≠ '+' := by
    rintro rfl
    exact absurd hc (by decide)
  rw [toInt, trimmed_eq_self fun d hd => isSpace_of_isDigit (hdigits d hd)]
  have hall : (c :: t).all Char.isDigit = true := List.all_eq_true.mpr hdigits
  have hsign : ¬ (c :: t).head? = some '-' := by simpa using hminus
  have hrange : (-2 ^ 31 : Int) ≤ decimalValue (c :: t) ∧ (decimalValue (c :: t) : Int) < 2 ^ 31 := by
    omega
  dsimp only
  split
  · next he => exact absurd (List.cons.inj he).1 hminus
  · next he => exact absurd (List.cons.inj he).1 hplus
  · rw [if_pos ⟨hne, hall⟩, if_neg hsign, if_pos hrange]

/-- The result of 32-bit arithmetic on `int`. -/
def wrapInt (n : Int) : Int := n.bmod (2 ^ 32)

def splitText (sep : QString) : Nat → QString → QString → List QString
  | _, part, [] => [part]
  | skip + 1, part, _ :: s => splitText sep skip part s
  | 0, part, c :: s =>
    if sep.isPrefixOf (c :: s) then part :: splitText sep (sep.length - 1) [] s
    else splitText sep 0 (part ++ [c]) s

/-- The place marker behind a percent sign: its number and its length. -/
def argMark (s : QString) : Option (Nat × Nat) :=
  let located := s.head? = some 'L'
  match if located then s.drop 1 else s with
  | [] => none
  | [a] =>
    if a.isDigit then some (decimalValue [a], if located then 2 else 1) else none
  | a :: b :: _ =>
    if !a.isDigit then none
    else if b.isDigit then some (decimalValue [a, b], if located then 3 else 2)
    else some (decimalValue [a], if located then 2 else 1)

def argMarks : Nat → QString → List Nat
  | _, [] => []
  | skip + 1, _ :: s => argMarks skip s
  | 0, c :: s =>
    match if c = '%' then argMark s else none with
    | some (n, length) => n :: argMarks length s
    | none => argMarks 0 s

def replaceMarks (mark : Nat) (a : QString) : Nat → QString → QString
  | _, [] => []
  | skip + 1, _ :: s => replaceMarks mark a skip s
  | 0, c :: s =>
    match if c = '%' then argMark s else none with
    | some (n, length) =>
      if n = mark then a ++ replaceMarks mark a length s
      else c :: s.take length ++ replaceMarks mark a length s
    | none => c :: replaceMarks mark a 0 s

/-- `arg` fills the place markers with the smallest number. -/
def arg (s a : QString) : QString :=
  match (argMarks 0 s).min? with
  | none => s
  | some mark => replaceMarks mark a 0 s

example : arg (arg "%1;%2".toList "x".toList) "y".toList = "x;y".toList := by decide

/-- `QByteArray::toHex`, lower case. -/
def hexDigit (n : Nat) : Char := if n < 10 then Char.ofNat (48 + n) else Char.ofNat (87 + n)

def toHex (s : QByteArray) : QString :=
  s.flatMap fun b => [hexDigit (b.toNat / 16), hexDigit (b.toNat % 16)]

theorem hexDigit_injective : ∀ m < 16, ∀ n < 16, hexDigit m = hexDigit n → m = n := by decide

theorem toHex_injective {s t : QByteArray} (h : toHex s = toHex t) : s = t := by
  induction s generalizing t with
  | nil =>
    cases t with
    | nil => rfl
    | cons b t => simp [toHex] at h
  | cons a s ih =>
    cases t with
    | nil => simp [toHex] at h
    | cons b t =>
      have ha := a.toNat_lt
      have hb := b.toNat_lt
      simp only [toHex, List.flatMap_cons, List.cons_append, List.nil_append, List.cons.injEq] at h
      obtain ⟨h1, h2, h3⟩ := h
      have hdiv := hexDigit_injective _ (by omega) _ (by omega) h1
      have hmod := hexDigit_injective _ (by omega) _ (by omega) h2
      have hab : a = b := UInt8.toNat_inj.mp (by omega)
      rw [hab, ih h3]

@[simp] theorem length_toHex (s : QByteArray) : (toHex s).length = 2 * s.length := by
  induction s with
  | nil => rfl
  | cons b s ih =>
    have hcons : toHex (b :: s) = hexDigit (b.toNat / 16) :: hexDigit (b.toNat % 16) :: toHex s := rfl
    rw [hcons, List.length_cons, List.length_cons, List.length_cons, ih]
    omega

theorem mem_toHex {s : QByteArray} {c : Char} (h : c ∈ toHex s) : ∃ n < 16, c = hexDigit n := by
  obtain ⟨b, -, hc⟩ := List.mem_flatMap.mp h
  have hb := b.toNat_lt
  cases List.mem_cons.mp hc with
  | inl hc => exact ⟨b.toNat / 16, by omega, hc⟩
  | inr hc => exact ⟨b.toNat % 16, by omega, List.mem_singleton.mp hc⟩

/-- `qSort`. Elements that compare equal may end up in any order. -/
class QtAlgorithms where
  qSort {α : Type} (lessThan : α → α → Bool) : List α → List α
  qSort_perm {α : Type} (lessThan : α → α → Bool) (l : List α) : (qSort lessThan l).Perm l
  qSort_pairwise {α : Type} (lessThan : α → α → Bool)
    (hasymm : ∀ a b, lessThan a b = true → lessThan b a = false)
    (htrans : ∀ a b c, lessThan b a = false → lessThan c b = false → lessThan c a = false)
    (l : List α) : (qSort lessThan l).Pairwise fun a b => lessThan b a = false

/-- A stable choice, for the examples. -/
@[reducible] def insertionSorting : QtAlgorithms where
  qSort lessThan l := l.insertionSort fun a b => lessThan b a = false
  qSort_perm lessThan l := l.perm_insertionSort _
  qSort_pairwise {α} lessThan hasymm htrans l := by
    have : Std.Total fun a b : α => lessThan b a = false := ⟨fun a b => by
      cases h : lessThan b a with
      | false => exact .inl rfl
      | true => exact .inr (hasymm b a h)⟩
    have : IsTrans α fun a b => lessThan b a = false := ⟨htrans⟩
    exact l.pairwise_insertionSort _

structure Sha1Hash where
  bytes : QByteArray
  length_bytes : bytes.length = 20
deriving DecidableEq

namespace Sha1Hash

/-- The hash of an invalid handle. -/
def zero : Sha1Hash := ⟨List.replicate 20 0, rfl⟩

/-- `to_hex(info_hash.to_string())` -/
def hex (h : Sha1Hash) : QString := toHex h.bytes

theorem hex_injective {h k : Sha1Hash} (he : h.hex = k.hex) : h = k := by
  cases h
  cases k
  simpa using toHex_injective he

@[simp] theorem length_hex (h : Sha1Hash) : h.hex.length = 40 := by
  rw [hex, length_toHex, h.length_bytes]

end Sha1Hash
end CuteTorrent
