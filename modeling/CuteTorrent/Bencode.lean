import Mathlib.Data.Nat.Digits.Lemmas
import CuteTorrent.Library.Assoc
import CuteTorrent.Library.Fuel
import CuteTorrent.Qt

/-! libtorrent's bencoding: `entry`, `bencode` and `bdecode`, with the slips of
the decoder. -/
namespace CuteTorrent

inductive Entry where
  | undefined
  | int (n : Int)
  | string (s : QByteArray)
  | list (es : List Entry)
  | dict (d : List (QByteArray × Entry))

namespace Entry

/-- `entry::dict()`: an undefined entry becomes an empty dictionary, any other
type throws. -/
def dictionary : Entry → Except Fault (List (QByteArray × Entry))
  | undefined => .ok []
  | dict d => .ok d
  | _ => .error .typeError

def stringValue : Entry → Except Fault QByteArray
  | undefined => .ok []
  | string s => .ok s
  | _ => .error .typeError

def findKey (e : Entry) (key : QByteArray) : Except Fault (Option Entry) := do
  let d ← e.dictionary
  return Assoc.find key d

end Entry

namespace Bencode

/-- Why a decoder stops: the flag `err`, or a look at `*in` behind the buffer. -/
inductive Stop where
  | err
  | overrun
deriving DecidableEq, Repr

def decimal (n : Nat) : QByteArray :=
  if n = 0 then [48] else (Nat.digits 10 n).reverse.map fun d => UInt8.ofNat (48 + d)

def integerToStr (n : Int) : QByteArray :=
  if n < 0 then 45 :: decimal n.natAbs else decimal n.natAbs

def writeString (s : QByteArray) : QByteArray := decimal s.length ++ 58 :: s

mutual
def bencode : Entry → QByteArray
  | .undefined => []
  | .int n => 105 :: (integerToStr n ++ [101])
  | .string s => writeString s
  | .list es => 108 :: (bencodeList es ++ [101])
  | .dict d => 100 :: (bencodeDict d ++ [101])
def bencodeList : List Entry → QByteArray
  | [] => []
  | e :: es => bencode e ++ bencodeList es
def bencodeDict : List (QByteArray × Entry) → QByteArray
  | [] => []
  | (k, e) :: d => writeString k ++ (bencode e ++ bencodeDict d)
end

def isDigit (b : UInt8) : Bool := decide (48 ≤ b.toNat) && decide (b.toNat ≤ 57)

def isSpace (b : UInt8) : Bool := decide (b = 32) || (decide (9 ≤ b.toNat) && decide (b.toNat ≤ 13))

def readUntil (token : UInt8) : QByteArray → Except Stop (QByteArray × QByteArray)
  | [] => .error .err
  | b :: bs =>
    if b = token then .ok ([], bs)
    else do
      let (val, rest) ← readUntil token bs
      return (b :: val, rest)

def readString (len : Nat) (bs : QByteArray) : Except Stop (QByteArray × QByteArray) :=
  if bs.length < len then .error .err else .ok (bs.take len, bs.drop len)

def digitsValue (s : QByteArray) : Nat := s.foldl (fun n b => 10 * n + (b.toNat - 48)) 0

/-- `strtoll(s, &end, 10)`; none when `end` stays at `s`. -/
def strtoll (s : QByteArray) : Option Int :=
  let body := (cString s).dropWhile isSpace
  let negative := decide (body.head? = some 45)
  let unsigned := if body.head? = some 45 ∨ body.head? = some 43 then body.tail else body
  let ds := unsigned.takeWhile isDigit
  if ds = [] then none
  else if negative then some (max (-2 ^ 63) (-(digitsValue ds : Int)))
  else some (min (2 ^ 63 - 1) (digitsValue ds : Int))

/-- `atoi` of a text that starts with a digit, cut off at the largest `int`. -/
def atoi (s : QByteArray) : Nat := min (2 ^ 31 - 1) (digitsValue (s.takeWhile isDigit))

section items
variable (dec : QByteArray → Except Stop (Entry × QByteArray))

/-- The loop `while (*in != 'e')` of a list. -/
def decodeList : Nat → QByteArray → Except Stop (List Entry × QByteArray)
  | _, [] => .error .overrun
  | 0, _ => .error .err
  | fuel + 1, b :: bs =>
    if b = 101 then .ok ([], bs)
    else do
      let (e, rest) ← dec (b :: bs)
      if rest = [] then .error .err
      else
        let (es, rest) ← decodeList fuel rest
        return (e :: es, rest)

/-- The loop of a dictionary. A key that is no string ends the dictionary there,
without an error. -/
def decodeDict : Nat → List (QByteArray × Entry) → QByteArray →
    Except Stop (List (QByteArray × Entry) × QByteArray)
  | _, _, [] => .error .overrun
  | 0, _, _ => .error .err
  | fuel + 1, d, b :: bs =>
    if b = 101 then .ok (d, bs)
    else do
      let (key, rest) ← dec (b :: bs)
      match key with
      | .string k =>
        let (e, rest) ← dec rest
        if rest = [] then .error .err
        else decodeDict fuel (Assoc.insert k e d) rest
      | _ => return (d, rest)

end items

/-- `bdecode_recursive` with the number of levels left below the limit of 100. -/
def bdecodeRecursive : Nat → QByteArray → Except Stop (Entry × QByteArray)
  | 0, _ => .error .err
  | _ + 1, [] => .error .err
  | depth + 1, b :: bs =>
    if b = 105 then do
      let (val, rest) ← readUntil 101 bs
      match strtoll val with
      | some n => return (.int n, rest)
      | none => .error .err
    else if b = 108 then do
      let (es, rest) ← decodeList (bdecodeRecursive depth) bs.length bs
      return (.list es, rest)
    else if b = 100 then do
      let (d, rest) ← decodeDict (bdecodeRecursive depth) bs.length [] bs
      return (.dict d, rest)
    else if isDigit b then do
      let (len, rest) ← readUntil 58 (b :: bs)
      let (s, rest) ← readString (atoi len) rest
      return (.string s, rest)
    else .error .err

/-- `bdecode`: an undefined entry for what does not parse, and for what follows
a complete entry no interest at all. -/
def bdecode (bs : QByteArray) : Except Fault Entry :=
  match bdecodeRecursive 100 bs with
  | .ok (e, _) => .ok e
  | .error .err => .ok .undefined
  | .error .overrun => .error .readPastEnd

theorem decimal_isDigit (n : Nat) : ∀ b ∈ decimal n, isDigit b = true := by
  intro b hb
  unfold decimal at hb
  split_ifs at hb with h
  · obtain rfl := List.mem_singleton.mp hb
    rfl
  · obtain ⟨d, hd, rfl⟩ := List.mem_map.mp hb
    have hlt : d < 10 := Nat.digits_lt_base (by omega) (List.mem_reverse.mp hd)
    have htoNat : (UInt8.ofNat (48 + d)).toNat = 48 + d := by
      rw [UInt8.toNat_ofNat']
      omega
    rw [isDigit, htoNat]
    simp
    omega

theorem decimal_ne_nil (n : Nat) : decimal n ≠ [] := by
  unfold decimal
  split_ifs with h
  · simp
  · have hd : Nat.digits 10 n ≠ [] := Nat.digits_ne_nil_iff_ne_zero.mpr h
    simpa using hd

theorem digitsValue_decimal (n : Nat) : digitsValue (decimal n) = n := by
  unfold decimal
  split_ifs with h
  · rw [h]
    rfl
  · have hbyte : ∀ d ∈ Nat.digits 10 n, (UInt8.ofNat (48 + d)).toNat - 48 = d := by
      intro d hd
      have hlt : d < 10 := Nat.digits_lt_base (by omega) hd
      rw [UInt8.toNat_ofNat']
      omega
    have hfold : ∀ ds : List Nat, (∀ d ∈ ds, (UInt8.ofNat (48 + d)).toNat - 48 = d) →
        digitsValue (ds.reverse.map fun d => UInt8.ofNat (48 + d)) = Nat.ofDigits 10 ds := by
      intro ds hds
      induction ds with
      | nil => rfl
      | cons d ds ih =>
        have hd := hds d (by simp)
        have hrest := ih fun e he => hds e (by simp [he])
        simp only [digitsValue] at hrest ⊢
        simp only [List.reverse_cons, List.map_append, List.foldl_append, hrest, List.map_cons,
          List.map_nil, List.foldl_cons, List.foldl_nil, hd, Nat.ofDigits_cons]
        omega
    rw [hfold _ hbyte, Nat.ofDigits_digits]

theorem isDigit_ne {b : UInt8} (h : isDigit b = true) :
    b ≠ 0 ∧ b ≠ 43 ∧ b ≠ 45 ∧ b ≠ 58 ∧ b ≠ 100 ∧ b ≠ 101 ∧ b ≠ 105 ∧ b ≠ 108 ∧
      isSpace b = false := by
  simp only [isDigit, Bool.and_eq_true, decide_eq_true_eq] at h
  refine ⟨?_, ?_, ?_, ?_, ?_, ?_, ?_, ?_, ?_⟩
  case refine_9 =>
    have h32 : b ≠ 32 := by
      rintro rfl
      exact absurd h.1 (by decide)
    simp [isSpace, h32]
    omega
  all_goals
    rintro rfl
    exact absurd h (by decide)

/-- `QString::number` -/
def number (n : Nat) : QString := (decimal n).map fun b => Char.ofNat b.toNat

theorem toNat_ofNat_digit {b : UInt8} (h : isDigit b = true) :
    (Char.ofNat b.toNat).toNat = b.toNat ∧ (Char.ofNat b.toNat).isDigit = true := by
  have hall : ∀ n < 128, 48 ≤ n → n ≤ 57 →
      (Char.ofNat n).toNat = n ∧ (Char.ofNat n).isDigit = true := by decide
  simp only [isDigit, Bool.and_eq_true, decide_eq_true_eq] at h
  exact hall b.toNat (by omega) h.1 h.2

theorem isDigit_of_mem_number {n : Nat} {c : Char} (h : c ∈ number n) : c.isDigit = true := by
  obtain ⟨b, hb, rfl⟩ := List.mem_map.mp h
  exact (toNat_ofNat_digit (decimal_isDigit n b hb)).2

theorem number_ne_nil (n : Nat) : number n ≠ [] := by
  simpa [number] using decimal_ne_nil n

theorem decimalValue_number (n : Nat) : decimalValue (number n) = n := by
  have hfold : ∀ (bs : QByteArray), (∀ b ∈ bs, isDigit b = true) → ∀ m,
      bs.foldl (fun x y => 10 * x + ((Char.ofNat y.toNat).toNat - 48)) m =
        bs.foldl (fun x y => 10 * x + (y.toNat - 48)) m := by
    intro bs hbs
    induction bs with
    | nil => exact fun _ => rfl
    | cons b bs ih =>
      intro m
      rw [List.foldl_cons, List.foldl_cons, (toNat_ofNat_digit (hbs b (by simp))).1,
        ih fun c hc => hbs c (by simp [hc])]
  rw [decimalValue, number, List.foldl_map, hfold _ (decimal_isDigit n)]
  exact digitsValue_decimal n

theorem number_injective {m n : Nat} (h : number m = number n) : m = n := by
  rw [← decimalValue_number m, h, decimalValue_number]

theorem fromCString_decimal (p : Platform) (n : Nat) : p.fromCString (decimal n) = number n := by
  have hnz : ∀ b ∈ decimal n, b ≠ 0 := fun b hb => (isDigit_ne (decimal_isDigit n b hb)).1
  rw [Platform.fromCString, (cString_eq_self_iff _).mpr hnz]
  refine fromUtf8_ascii fun b hb => ?_
  have hdigit := decimal_isDigit n b hb
  simp only [isDigit, Bool.and_eq_true, decide_eq_true_eq] at hdigit
  omega

theorem toInt_decimal (p : Platform) {n : Nat} (h : n < 2 ^ 31) :
    toInt (p.fromCString (decimal n)) = some (n : Int) := by
  have hint := toInt_of_digits (number_ne_nil n) (fun _ => isDigit_of_mem_number)
    ((decimalValue_number n).symm ▸ h)
  rwa [decimalValue_number, ← fromCString_decimal p] at hint

theorem takeWhile_decimal (n : Nat) : (decimal n).takeWhile isDigit = decimal n :=
  List.takeWhile_eq_self_iff.mpr (decimal_isDigit n)

theorem readUntil_append {token : UInt8} {s : QByteArray} (h : ∀ b ∈ s, b ≠ token)
    (rest : QByteArray) : readUntil token (s ++ token :: rest) = .ok (s, rest) := by
  induction s with
  | nil => simp [readUntil]
  | cons b s ih =>
    have hb : b ≠ token := h b (by simp)
    have htail := ih fun c hc => h c (by simp [hc])
    simp [readUntil, hb, htail, Bind.bind, Except.bind, Pure.pure, Except.pure]

theorem readString_append (s rest : QByteArray) :
    readString s.length (s ++ rest) = .ok (s, rest) := by
  simp [readString]

theorem atoi_decimal {n : Nat} (h : n < 2 ^ 31) : atoi (decimal n) = n := by
  rw [atoi, takeWhile_decimal, digitsValue_decimal]
  omega

theorem strtoll_integerToStr {n : Int} (hlo : -2 ^ 63 < n) (hhi : n < 2 ^ 63) :
    strtoll (integerToStr n) = some n := by
  obtain ⟨b, ds, hds⟩ := List.exists_cons_of_ne_nil (decimal_ne_nil n.natAbs)
  have hdigit : ∀ c ∈ decimal n.natAbs, isDigit c = true := decimal_isDigit n.natAbs
  have hb : isDigit b = true := hdigit b (by simp [hds])
  have hnz : ∀ c ∈ decimal n.natAbs, c ≠ 0 := fun c hc => (isDigit_ne (hdigit c hc)).1
  have hvalue : digitsValue (decimal n.natAbs) = n.natAbs := digitsValue_decimal _
  have htake := takeWhile_decimal n.natAbs
  by_cases hneg : n < 0
  · have hc : cString (45 :: decimal n.natAbs) = 45 :: decimal n.natAbs := by
      rw [cString_eq_self_iff]
      simpa using hnz
    have hdrop : (45 :: decimal n.natAbs).dropWhile isSpace = 45 :: decimal n.natAbs := rfl
    simp only [strtoll, integerToStr, if_pos hneg, hc, hdrop, List.head?_cons, List.tail_cons,
      true_or, if_true, htake, decimal_ne_nil, if_false, hvalue, decide_true]
    congr 1
    omega
  · have hc : cString (decimal n.natAbs) = decimal n.natAbs := (cString_eq_self_iff _).mpr hnz
    have hne := isDigit_ne hb
    have hdrop : (decimal n.natAbs).dropWhile isSpace = decimal n.natAbs := by
      rw [hds, List.dropWhile_cons_of_neg]
      simp [hne.2.2.2.2.2.2.2.2]
    have hhead : (decimal n.natAbs).head? = some b := by rw [hds]; rfl
    simp only [strtoll, integerToStr, if_neg hneg, hc, hdrop, hhead, Option.some.injEq, hne.2.1,
      hne.2.2.1, or_self, if_false, htake, decimal_ne_nil, hvalue, decide_false, Bool.false_eq_true]
    omega

/-! ### What was encoded is decoded again -/

/-- An entry the encoder can write so that `n` levels of the decoder read it:
integers and lengths in range, dictionaries in the order of their keys. -/
def Fits : Nat → Entry → Prop
  | 0, _ => False
  | _ + 1, .undefined => False
  | _ + 1, .int v => -2 ^ 63 < v ∧ v < 2 ^ 63
  | _ + 1, .string s => s.length < 2 ^ 31
  | n + 1, .list es => ∀ e ∈ es, Fits n e
  | n + 1, .dict d => (Assoc.keys d).Pairwise (fun j k => j ≠ k ∧ ¬ k < j) ∧
      ∀ p ∈ d, p.1.length < 2 ^ 31 ∧ Fits n p.2

theorem writeString_head (s : QByteArray) :
    ∃ b bs, writeString s = b :: bs ∧ isDigit b = true := by
  obtain ⟨b, ds, hds⟩ := List.exists_cons_of_ne_nil (decimal_ne_nil s.length)
  refine ⟨b, ds ++ 58 :: s, by rw [writeString, hds]; rfl, ?_⟩
  exact decimal_isDigit s.length b (by simp [hds])

theorem bencode_head {n : Nat} {e : Entry} (h : Fits n e) :
    ∃ b bs, bencode e = b :: bs ∧ b ≠ 101 := by
  cases n with
  | zero => exact h.elim
  | succ n =>
    cases e with
    | undefined => exact h.elim
    | int v => exact ⟨105, _, by rw [bencode], by decide⟩
    | string s =>
      obtain ⟨b, bs, hb, hd⟩ := writeString_head s
      exact ⟨b, bs, by rw [bencode, hb], (isDigit_ne hd).2.2.2.2.2.1⟩
    | list es => exact ⟨108, _, by rw [bencode], by decide⟩
    | dict d => exact ⟨100, _, by rw [bencode], by decide⟩

theorem bdecodeRecursive_writeString {n : Nat} {s : QByteArray} (h : s.length < 2 ^ 31)
    (rest : QByteArray) :
    bdecodeRecursive (n + 1) (writeString s ++ rest) = .ok (.string s, rest) := by
  obtain ⟨b, bs, hb, hd⟩ := writeString_head s
  have hne := isDigit_ne hd
  have hlen : ∀ c ∈ decimal s.length, c ≠ 58 := fun c hc =>
    (isDigit_ne (decimal_isDigit _ c hc)).2.2.2.1
  have hread : readUntil 58 (b :: (bs ++ rest)) = .ok (decimal s.length, s ++ rest) := by
    rw [← List.cons_append, ← hb, writeString, List.append_assoc, List.cons_append]
    exact readUntil_append hlen _
  rw [hb, List.cons_append]
  simp only [bdecodeRecursive, if_neg hne.2.2.2.2.2.2.1, if_neg hne.2.2.2.2.2.2.2.1,
    if_neg hne.2.2.2.2.1, hd, if_true, hread, Bind.bind, Except.bind, atoi_decimal h,
    readString_append]
  rfl

section items
variable (dec : QByteArray → Except Stop (Entry × QByteArray))

theorem decodeList_bencodeList {es : List Entry}
    (hdec : ∀ e ∈ es, ∀ rest, dec (bencode e ++ rest) = .ok (e, rest))
    (hhead : ∀ e ∈ es, ∃ b bs, bencode e = b :: bs ∧ b ≠ 101) (rest : QByteArray) (fuel : Nat)
    (hfuel : es.length < fuel) :
    decodeList dec fuel (bencodeList es ++ 101 :: rest) = .ok (es, rest) := by
  induction es generalizing fuel with
  | nil =>
    cases fuel with
    | zero => omega
    | succ fuel => simp [bencodeList, decodeList]
  | cons e es ih =>
    cases fuel with
    | zero => omega
    | succ fuel =>
      obtain ⟨b, bs, hb, hne⟩ := hhead e (by simp)
      have hone := hdec e (by simp) (bencodeList es ++ 101 :: rest)
      have hrest : bencodeList es ++ 101 :: rest ≠ [] := by simp
      have htail := ih (fun f hf => hdec f (by simp [hf])) (fun f hf => hhead f (by simp [hf]))
        fuel (by simpa using hfuel)
      rw [hb, List.cons_append] at hone
      rw [bencodeList, hb, List.append_assoc, List.cons_append]
      simp only [decodeList, if_neg hne, hone, Bind.bind, Except.bind, if_neg hrest, htail]
      rfl

theorem insert_last {k : QByteArray} {d : List (QByteArray × Entry)}
    (h : ∀ j ∈ Assoc.keys d, j ≠ k ∧ ¬ k < j) (e : Entry) :
    Assoc.insert k e d = d ++ [(k, e)] := by
  induction d with
  | nil => rfl
  | cons p d ih =>
    obtain ⟨j, v⟩ := p
    have hj := h j (by simp)
    rw [Assoc.insert, if_neg hj.1, if_neg hj.2, ih fun i hi => h i (by simp [hi])]
    rfl

theorem decodeDict_bencodeDict {d : List (QByteArray × Entry)}
    (hkey : ∀ p ∈ d, ∀ rest, dec (writeString p.1 ++ rest) = .ok (.string p.1, rest))
    (hdec : ∀ p ∈ d, ∀ rest, dec (bencode p.2 ++ rest) = .ok (p.2, rest))
    (rest : QByteArray) (acc : List (QByteArray × Entry))
    (hsorted : (Assoc.keys (acc ++ d)).Pairwise fun j k => j ≠ k ∧ ¬ k < j) (fuel : Nat)
    (hfuel : d.length < fuel) :
    decodeDict dec fuel acc (bencodeDict d ++ 101 :: rest) = .ok (acc ++ d, rest) := by
  induction d generalizing acc fuel with
  | nil =>
    cases fuel with
    | zero => omega
    | succ fuel => simp [bencodeDict, decodeDict]
  | cons p d ih =>
    obtain ⟨k, e⟩ := p
    cases fuel with
    | zero => omega
    | succ fuel =>
      obtain ⟨b, bs, hb, hd⟩ := writeString_head k
      have hk := hkey (k, e) (by simp) (bencode e ++ (bencodeDict d ++ 101 :: rest))
      have he := hdec (k, e) (by simp) (bencodeDict d ++ 101 :: rest)
      have hrest : bencodeDict d ++ 101 :: rest ≠ [] := by simp
      have hbefore : ∀ j ∈ Assoc.keys acc, j ≠ k ∧ ¬ k < j := by
        intro j hj
        have hsplit : Assoc.keys (acc ++ (k, e) :: d) = Assoc.keys acc ++ k :: Assoc.keys d := by
          simp [Assoc.keys]
        rw [hsplit, List.pairwise_append] at hsorted
        exact hsorted.2.2 j hj k (by simp)
      have hstep : acc ++ (k, e) :: d = Assoc.insert k e acc ++ d := by
        rw [insert_last hbefore]
        simp
      have htail := ih (fun q hq => hkey q (by simp [hq])) (fun q hq => hdec q (by simp [hq]))
        (Assoc.insert k e acc) (hstep ▸ hsorted) fuel (by simpa using hfuel)
      rw [hb, List.cons_append] at hk
      rw [bencodeDict, hb, List.append_assoc, List.cons_append, List.append_assoc]
      simp only [decodeDict, if_neg (isDigit_ne hd).2.2.2.2.2.1, hk, Bind.bind, Except.bind, he,
        if_neg hrest, htail, hstep]

end items

theorem length_le_bencodeList {es : List Entry}
    (h : ∀ e ∈ es, ∃ b bs, bencode e = b :: bs ∧ b ≠ 101) : es.length ≤ (bencodeList es).length := by
  induction es with
  | nil => exact Nat.zero_le _
  | cons e es ih =>
    obtain ⟨b, bs, hb, -⟩ := h e (by simp)
    have := ih fun f hf => h f (by simp [hf])
    simp [bencodeList, hb]
    omega

theorem length_le_bencodeDict (d : List (QByteArray × Entry)) :
    d.length ≤ (bencodeDict d).length := by
  induction d with
  | nil => exact Nat.zero_le _
  | cons p d ih =>
    obtain ⟨b, bs, hb, -⟩ := writeString_head p.1
    simp [bencodeDict, hb]
    omega

theorem bdecodeRecursive_bencode {n : Nat} {e : Entry} (h : Fits n e) (rest : QByteArray) :
    bdecodeRecursive n (bencode e ++ rest) = .ok (e, rest) := by
  induction n generalizing e rest with
  | zero => exact h.elim
  | succ n ih =>
    cases e with
    | undefined => exact h.elim
    | int v =>
      have hne : ∀ b ∈ integerToStr v, b ≠ 101 := by
        intro b hb
        unfold integerToStr at hb
        split_ifs at hb with hv
        · cases List.mem_cons.mp hb with
          | inl heq =>
            subst heq
            decide
          | inr hb => exact (isDigit_ne (decimal_isDigit _ b hb)).2.2.2.2.2.1
        · exact (isDigit_ne (decimal_isDigit _ b hb)).2.2.2.2.2.1
      have hread := readUntil_append hne rest
      simp only [bencode, List.cons_append, List.append_assoc, List.nil_append, bdecodeRecursive,
        if_true, hread, Bind.bind, Except.bind, strtoll_integerToStr h.1 h.2]
      rfl
    | string s => exact bdecodeRecursive_writeString h rest
    | list es =>
      have hhead : ∀ e ∈ es, ∃ b bs, bencode e = b :: bs ∧ b ≠ 101 := fun e he => bencode_head (h e he)
      have hlen := length_le_bencodeList hhead
      have hloop := decodeList_bencodeList (bdecodeRecursive n)
        (fun e he rest => ih (h e he) rest) hhead rest
        (bencodeList es ++ 101 :: rest).length (by simp; omega)
      simp only [bencode, List.cons_append, List.append_assoc, List.nil_append, bdecodeRecursive,
        show ¬ (108 : UInt8) = 105 by decide, if_false, if_true, hloop, Bind.bind, Except.bind]
      rfl
    | dict d =>
      have hlen := length_le_bencodeDict d
      have hkey : ∀ p ∈ d, ∀ rest,
          bdecodeRecursive n (writeString p.1 ++ rest) = .ok (.string p.1, rest) := by
        intro p hp rest
        cases n with
        | zero => exact (h.2 p hp).2.elim
        | succ n => exact bdecodeRecursive_writeString (h.2 p hp).1 rest
      have hloop := decodeDict_bencodeDict (bdecodeRecursive n) hkey
        (fun p hp rest => ih (h.2 p hp).2 rest) rest [] h.1
        (bencodeDict d ++ 101 :: rest).length (by simp; omega)
      simp only [bencode, List.cons_append, List.append_assoc, List.nil_append, bdecodeRecursive,
        show ¬ (100 : UInt8) = 105 by decide, show ¬ (100 : UInt8) = 108 by decide, if_false,
        if_true, hloop, Bind.bind, Except.bind]
      rfl

theorem bdecode_bencode_append {e : Entry} (h : Fits 100 e) (rest : QByteArray) :
    bdecode (bencode e ++ rest) = .ok e := by
  rw [bdecode, bdecodeRecursive_bencode h rest]

/-! ### The loops have fuel enough -/

theorem readUntil_length {token : UInt8} {bs val rest : QByteArray}
    (h : readUntil token bs = .ok (val, rest)) : rest.length < bs.length := by
  induction bs generalizing val with
  | nil => simp [readUntil] at h
  | cons b bs ih =>
    by_cases hb : b = token
    · simp only [readUntil, if_pos hb, Except.ok.injEq, Prod.mk.injEq] at h
      simp [← h.2]
    · cases hr : readUntil token bs with
      | error e => simp [readUntil, hb, hr, Bind.bind, Except.bind] at h
      | ok q =>
        simp only [readUntil, if_neg hb, hr, Bind.bind, Except.bind, Pure.pure, Except.pure,
          Except.ok.injEq, Prod.mk.injEq] at h
        have hq : readUntil token bs = .ok (q.1, rest) := by rw [hr, ← h.2]
        have := ih hq
        simp
        omega

theorem typeError_of_stringValue {e : Entry} {f : Fault} (h : e.stringValue = .error f) :
    f = .typeError := by
  cases e <;> cases h <;> rfl

theorem typeError_of_findKey {e : Entry} {key : QByteArray} {f : Fault}
    (h : e.findKey key = .error f) : f = .typeError := by
  obtain h | ⟨d, -, h⟩ := bind_eq_error h
  · cases e <;> cases h <;> rfl
  · cases h

section items
variable {dec : QByteArray → Except Stop (Entry × QByteArray)}
  (hdec : ∀ bs e rest, dec bs = .ok (e, rest) → rest.length < bs.length)
include hdec

theorem decodeList_length {fuel : Nat} {bs rest : QByteArray} {es : List Entry}
    (h : decodeList dec fuel bs = .ok (es, rest)) : rest.length < bs.length := by
  induction fuel generalizing bs es with
  | zero => cases bs <;> simp [decodeList] at h
  | succ fuel ih =>
    cases bs with
    | nil => simp [decodeList] at h
    | cons b bs =>
      rw [decodeList] at h
      split_ifs at h with hb
      · simp only [Except.ok.injEq, Prod.mk.injEq] at h
        simp [← h.2]
      · obtain ⟨⟨e, mid⟩, he, h⟩ := bind_eq_ok h
        have hmid := hdec _ _ _ he
        dsimp only at h
        split_ifs at h
        obtain ⟨⟨fs, rest'⟩, hfs, h⟩ := bind_eq_ok h
        simp only [Pure.pure, Except.pure, Except.ok.injEq, Prod.mk.injEq] at h
        rw [h.2] at hfs
        have hrest := ih hfs
        omega

theorem decodeDict_length {fuel : Nat} {bs rest : QByteArray} {d d' : List (QByteArray × Entry)}
    (h : decodeDict dec fuel d bs = .ok (d', rest)) : rest.length < bs.length := by
  induction fuel generalizing bs d with
  | zero => cases bs <;> simp [decodeDict] at h
  | succ fuel ih =>
    cases bs with
    | nil => simp [decodeDict] at h
    | cons b bs =>
      rw [decodeDict] at h
      split_ifs at h with hb
      · simp only [Except.ok.injEq, Prod.mk.injEq] at h
        simp [← h.2]
      · obtain ⟨⟨key, mid⟩, hkey, h⟩ := bind_eq_ok h
        have hmid := hdec _ _ _ hkey
        cases key with
        | string k =>
          obtain ⟨⟨e, next⟩, he, h⟩ := bind_eq_ok h
          have hnext := hdec _ _ _ he
          dsimp only at h
          split_ifs at h
          have hrest := ih h
          omega
        | undefined | int | list | dict =>
          simp only [Pure.pure, Except.pure, Except.ok.injEq, Prod.mk.injEq] at h
          rw [← h.2]
          exact hmid

theorem decodeList_fuel {f g : Nat} {bs : QByteArray} (hf : bs.length ≤ f) (hg : bs.length ≤ g) :
    decodeList dec f bs = decodeList dec g bs := by
  refine Fuel.eq_of_length_le (decodeList dec) ?_ ?_ hf hg
  · intro f g
    cases f <;> cases g <;> rfl
  · intro f g bs hne ih
    obtain ⟨b, bs, rfl⟩ := List.exists_cons_of_ne_nil hne
    rw [decodeList, decodeList]
    cases hd : dec (b :: bs) with
    | error e => rfl
    | ok q =>
      have htail : decodeList dec f q.2 = decodeList dec g q.2 := ih q.2 (hdec _ q.1 q.2 hd)
      simp only [Bind.bind, Except.bind, htail]

theorem decodeDict_fuel {f g : Nat} {bs : QByteArray} (d : List (QByteArray × Entry))
    (hf : bs.length ≤ f) (hg : bs.length ≤ g) : decodeDict dec f d bs = decodeDict dec g d bs := by
  have hloop : (fun d => decodeDict dec f d bs) = fun d => decodeDict dec g d bs := by
    refine Fuel.eq_of_length_le (fun f bs d => decodeDict dec f d bs) ?_ ?_ hf hg
    · intro f g
      cases f <;> cases g <;> rfl
    · intro f g bs hne ih
      obtain ⟨b, bs, rfl⟩ := List.exists_cons_of_ne_nil hne
      funext d
      rw [decodeDict, decodeDict]
      cases hd : dec (b :: bs) with
      | error e => rfl
      | ok q =>
        obtain ⟨key, mid⟩ := q
        have hmid := hdec _ _ _ hd
        cases key with
        | string k =>
          cases hv : dec mid with
          | error e => simp [Bind.bind, Except.bind, hv]
          | ok r =>
            have hlen := hdec _ r.1 r.2 hv
            have htail : ∀ d, decodeDict dec f d r.2 = decodeDict dec g d r.2 :=
              congrFun (ih r.2 (hlen.trans hmid))
            simp only [Bind.bind, Except.bind, hv, htail]
        | undefined | int | list | dict => rfl
  exact congrFun hloop d

end items

theorem bdecodeRecursive_length {n : Nat} {bs rest : QByteArray} {e : Entry}
    (h : bdecodeRecursive n bs = .ok (e, rest)) : rest.length < bs.length := by
  induction n generalizing bs e rest with
  | zero => simp [bdecodeRecursive] at h
  | succ n ih =>
    cases bs with
    | nil => simp [bdecodeRecursive] at h
    | cons b bs =>
      rw [bdecodeRecursive] at h
      split_ifs at h
      · obtain ⟨⟨val, rest'⟩, hval, h⟩ := bind_eq_ok h
        have hlen := readUntil_length hval
        dsimp only at h
        cases hn : strtoll val with
        | none => simp [hn] at h
        | some v =>
          simp only [hn, Pure.pure, Except.pure, Except.ok.injEq, Prod.mk.injEq] at h
          simp [← h.2]
          omega
      · obtain ⟨⟨es, rest'⟩, hes, h⟩ := bind_eq_ok h
        have hlen := decodeList_length (fun _ _ _ => ih) hes
        simp only [Pure.pure, Except.pure, Except.ok.injEq, Prod.mk.injEq] at h
        simp [← h.2]
        omega
      · obtain ⟨⟨d, rest'⟩, hd, h⟩ := bind_eq_ok h
        have hlen := decodeDict_length (fun _ _ _ => ih) hd
        simp only [Pure.pure, Except.pure, Except.ok.injEq, Prod.mk.injEq] at h
        simp [← h.2]
        omega
      · obtain ⟨⟨len, mid⟩, hmid, h⟩ := bind_eq_ok h
        have hlen := readUntil_length hmid
        obtain ⟨⟨s, rest'⟩, hs, h⟩ := bind_eq_ok h
        simp only [Pure.pure, Except.pure, Except.ok.injEq, Prod.mk.injEq] at h
        unfold readString at hs
        split_ifs at hs
        simp only [Except.ok.injEq, Prod.mk.injEq] at hs
        rw [← h.2, ← hs.2, List.length_drop]
        omega

/-- The fuel of the loops in `bdecodeRecursive` is no bound on what it decodes. -/
theorem bdecodeRecursive_fuel (n : Nat) (bs : QByteArray) {fuel : Nat}
    (hfuel : bs.length ≤ fuel) :
    decodeList (bdecodeRecursive n) bs.length bs = decodeList (bdecodeRecursive n) fuel bs ∧
      decodeDict (bdecodeRecursive n) bs.length [] bs =
        decodeDict (bdecodeRecursive n) fuel [] bs :=
  ⟨decodeList_fuel (fun _ _ _ => bdecodeRecursive_length) (Nat.le_refl _) hfuel,
    decodeDict_fuel (fun _ _ _ => bdecodeRecursive_length) [] (Nat.le_refl _) hfuel⟩

end Bencode
end CuteTorrent
