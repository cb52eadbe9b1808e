import CuteTorrent.IpFilter
import CuteTorrent.OpenTorrentDialog
import CuteTorrent.SearchPages
import CuteTorrent.StaticHelpers

/-! The table of the peers: its cells, and the comparison by which a column is sorted. -/
namespace CuteTorrent
open SearchPage

/-- What the table uses of Qt beyond the conversions: the value of a text that is no number,
the order of numbers, the address a text reads as (none for a null address, 0 for one that is
not IPv4), and the order of `QTableWidgetItem`. -/
class QtTableItems extends QtConversions, QtFloat where
  zero : Double
  less : Double → Double → Bool
  less_asymm : ∀ x y, less x y = true → less y x = false
  hostAddress : QString → Option Nat
  textLess : QString → QString → Bool
  textLess_asymm : ∀ s t, textLess s t = true → textLess t s = false

namespace MyTableWidgetItem
open QtConversions QtTableItems StaticHelpers

structure PeerInfo where
  address : QByteArray
  client : QByteArray
  rc4_encrypted : Bool
  plaintext_encrypted : Bool
  progress_ppm : Int
  down_speed : Int
  up_speed : Int
  total_download : Int
  total_upload : Int

inductive PeerColumn where
  | address
  | client
  | progress
  | downSpeed
  | upSpeed
  | download
  | upload
deriving DecidableEq, Repr

/-- The first letter behind the first space. -/
def unitLetter (text : QString) : Option Char := (text.splitOn ' ')[1]?.bind List.head?

def LetterStands (text : QString) : Prop := (unitLetter text).isSome = true

instance (text : QString) : Decidable (LetterStands text) := inferInstanceAs (Decidable (_ = true))

theorem unitLetter_getD {text unit : QString} (h : (text.splitOn ' ')[1]? = some unit) :
    (unitLetter text).getD (Char.ofNat 0) = unit.headD (Char.ofNat 0) := by
  rw [unitLetter, h, Option.bind_some, List.headD_eq_head?_getD]

section
variable [QtTableItems]

def cell (p : Platform) (peer : PeerInfo) : PeerColumn → QString
  | .address => p.fromStdString peer.address
  | .client =>
    let client := p.fromStdString peer.client
    if peer.rc4_encrypted || peer.plaintext_encrypted then client ++ " *".toList else client
  | .progress => QtFloat.number (QtFloat.divide (QtFloat.ofInt peer.progress_ppm) 10000) 1 ++ "%".toList
  | .downSpeed => toKbMbGb peer.down_speed ++ "/s".toList
  | .upSpeed => toKbMbGb peer.up_speed ++ "/s".toList
  | .download => toKbMbGb peer.total_download
  | .upload => toKbMbGb peer.total_upload

def number (text : QString) : Double := (toDouble text).getD zero

def endsWithPercent (text : QString) : Bool := text.getLast? == some '%'

def withoutPercent (text : QString) : QString := text.filter fun c => decide (c ≠ '%')

/-- What the comparison takes a text for that stands on the left. -/
inductive Kind where
  | address
  | size
  | percent
  | other
deriving DecidableEq, Repr

def kindLess (a b : QString) : Kind → Bool
  | .address => decide ((hostAddress a).getD 0 < (hostAddress b).getD 0)
  | .size => less (scaled (number ((a.splitOn ' ').headD [])) ((unitLetter a).getD (Char.ofNat 0)))
      (scaled (number ((b.splitOn ' ').headD [])) ((unitLetter b).getD (Char.ofNat 0)))
  | .percent => less (number (withoutPercent a)) (number (withoutPercent b))
  | .other => textLess a b

theorem kindLess_asymm (a b : QString) (k : Kind) (h : kindLess a b k = true) :
    kindLess b a k = false := by
  cases k with
  | address =>
    have hlt := of_decide_eq_true h
    exact decide_eq_false (by omega)
  | size => exact less_asymm _ _ h
  | percent => exact less_asymm _ _ h
  | other => exact textLess_asymm _ _ h

/-- Two texts as sizes: both need a second part, and a letter in it. -/
def sizesLess (a b : QString) : Except Fault (Bool × Bool) :=
  match (a.splitOn ' ')[1]?, (b.splitOn ' ')[1]? with
  | some unit1, some unit2 => .ok (kindLess a b .size, unit1.isEmpty || unit2.isEmpty)
  | _, _ => .error .indexOutOfRange

theorem sizesLess_iff {a b : QString} {r : Bool} : sizesLess a b = .ok (r, false) ↔
    (LetterStands a ∧ LetterStands b) ∧ r = kindLess a b .size := by
  unfold sizesLess LetterStands unitLetter
  cases (a.splitOn ' ')[1]? with
  | none => simp
  | some unit1 =>
    cases (b.splitOn ' ')[1]? with
    | none => simp
    | some unit2 =>
      cases unit1 <;> cases unit2 <;> simp [eq_comm]

variable [QtTables]

/-- `operator <`, and whether a character was read outside its part, which Qt answers
with NUL. -/
def lessThan (text other : QString) : Except Fault (Bool × Bool) :=
  match hostAddress text with
  | some thisadr => .ok (decide (thisadr < (hostAddress other).getD 0), false)
  | none =>
    if hasUnit text then
      let parts1 := text.splitOn ' '
      match toDouble (parts1.headD []) with
      | some speed1 =>
        let parts2 := other.splitOn ' '
        let speed2 := number (parts2.headD [])
        match parts1[1]?, parts2[1]? with
        | some unit1, some unit2 =>
          .ok (less (scaled speed1 (unit1.headD (Char.ofNat 0)))
            (scaled speed2 (unit2.headD (Char.ofNat 0))), unit1.isEmpty || unit2.isEmpty)
        | _, _ => .error .indexOutOfRange
      | none => .ok (textLess text other, false)
    else if endsWithPercent text then
      .ok (less (number (withoutPercent text)) (number (withoutPercent other)), false)
    else .ok (textLess text other, false)

/-- Both ways of comparing read inside the texts, and they do not both say less. -/
def Sortable (a b : QString) : Prop :=
  ∃ r r', lessThan a b = .ok (r, false) ∧ lessThan b a = .ok (r', false) ∧
    ¬ (r = true ∧ r' = true)

def kind (text : QString) : Kind :=
  match hostAddress text with
  | some _ => .address
  | none =>
    if hasUnit text then
      match toDouble ((text.splitOn ' ').headD []) with
      | some _ => .size
      | none => .other
    else if endsWithPercent text then .percent
    else .other

theorem lessThan_eq (a b : QString) : lessThan a b =
    if kind a = .size then sizesLess a b else .ok (kindLess a b (kind a), false) := by
  unfold lessThan kind
  cases haddress : hostAddress a with
  | some n => simp [kindLess, haddress]
  | none =>
    dsimp only
    by_cases hunit : hasUnit a = true
    · rw [if_pos hunit, if_pos hunit]
      cases hnumber : toDouble ((a.splitOn ' ').headD []) with
      | none => rfl
      | some speed1 =>
        have hspeed : number ((a.splitOn ' ').headD []) = speed1 := by
          rw [number, hnumber, Option.getD_some]
        dsimp only
        rw [if_pos rfl, sizesLess]
        cases hunit1 : (a.splitOn ' ')[1]? with
        | none => rfl
        | some unit1 =>
          cases hunit2 : (b.splitOn ' ')[1]? with
          | none => rfl
          | some unit2 =>
            dsimp only
            rw [kindLess, hspeed, unitLetter_getD hunit1, unitLetter_getD hunit2]
    · rw [if_neg hunit, if_neg hunit]
      by_cases hpercent : endsWithPercent a = true
      · rw [if_pos hpercent, if_pos hpercent]
        rfl
      · rw [if_neg hpercent, if_neg hpercent]
        rfl

theorem lessThan_iff {a b : QString} {r : Bool} : lessThan a b = .ok (r, false) ↔
    (kind a = .size → LetterStands a ∧ LetterStands b) ∧ r = kindLess a b (kind a) := by
  rw [lessThan_eq]
  split_ifs with hsize
  · rw [sizesLess_iff, hsize, forall_prop_of_true rfl]
  · simp [hsize, eq_comm]

/-- What two texts need: a letter behind the first space of both, if either is a size; and if
they are of different kinds, and none an address, not each before the other in its own order. -/
def Comparable (a b : QString) : Prop :=
  (kind a = .size ∨ kind b = .size → LetterStands a ∧ LetterStands b) ∧
  (kind a ≠ kind b → kind a ≠ .address → kind b ≠ .address →
    ¬ (kindLess a b (kind a) = true ∧ kindLess b a (kind b) = true))

theorem hostAddress_of_kind {text : QString} (h : kind text ≠ .address) : hostAddress text = none := by
  cases haddress : hostAddress text with
  | none => rfl
  | some n => exact absurd (by rw [kind, haddress]) h

theorem kindLess_of_address {a b : QString} (hb : kind b ≠ .address) :
    kindLess a b .address = false := by
  rw [kindLess, hostAddress_of_kind hb]
  exact decide_eq_false (Nat.not_lt_zero _)

/-- Texts of one kind are not each before the other, nor is an address before any other text. -/
theorem not_both_less {a b : QString}
    (h : kind a = kind b ∨ kind a = .address ∨ kind b = .address) :
    ¬ (kindLess a b (kind a) = true ∧ kindLess b a (kind b) = true) := by
  rintro ⟨hab, hba⟩
  by_cases hsame : kind a = kind b
  · rw [hsame] at hab
    rw [kindLess_asymm a b _ hab] at hba
    cases hba
  · rcases h.resolve_left hsame with ha | hb
    · rw [ha, kindLess_of_address (ha ▸ Ne.symm hsame)] at hab
      cases hab
    · rw [hb, kindLess_of_address (hb ▸ hsame)] at hba
      cases hba

theorem sortable_iff (a b : QString) : Sortable a b ↔ Comparable a b := by
  have hsortable : Sortable a b ↔
      ((kind a = .size → LetterStands a ∧ LetterStands b) ∧
        (kind b = .size → LetterStands b ∧ LetterStands a)) ∧
      ¬ (kindLess a b (kind a) = true ∧ kindLess b a (kind b) = true) := by
    unfold Sortable
    constructor
    · rintro ⟨r, r', hab, hba, hnot⟩
      obtain ⟨ha, rfl⟩ := lessThan_iff.mp hab
      obtain ⟨hb, rfl⟩ := lessThan_iff.mp hba
      exact ⟨⟨ha, hb⟩, hnot⟩
    · rintro ⟨⟨ha, hb⟩, hnot⟩
      exact ⟨_, _, lessThan_iff.mpr ⟨ha, rfl⟩, lessThan_iff.mpr ⟨hb, rfl⟩, hnot⟩
  rw [hsortable, Comparable, or_imp, and_comm (a := LetterStands b)]
  refine and_congr_right fun _ => ⟨fun hnot _ _ _ => hnot, fun hnot => ?_⟩
  by_cases h : kind a = kind b ∨ kind a = .address ∨ kind b = .address
  · exact not_both_less h
  · rw [not_or, not_or] at h
    exact hnot h.1 h.2.1 h.2.2

/-- The peers' table is sorted safely exactly where the texts of a column can be compared. -/
theorem peerTable_sortable_iff (p : Platform) (peer peer' : PeerInfo) (column : PeerColumn) :
    Sortable (cell p peer column) (cell p peer' column) ↔
      Comparable (cell p peer column) (cell p peer' column) :=
  sortable_iff _ _

end

section sample
local instance : QtTables := TorrentStorrage.asciiCase

/-- Whole numbers, dotted quads, and the case of ASCII letters. -/
local instance wholeItems : QtTableItems where
  toLower := Char.toLower
  Double := Int
  toDouble := toInt
  times size n := size * n
  toLongLong := id
  zero := 0
  less x y := decide (x < y)
  less_asymm x y h := by
    have hlt := of_decide_eq_true h
    exact decide_eq_false (Int.not_lt.mpr (Int.le_of_lt hlt))
  hostAddress := dottedQuad
  textLess s t := decide (utf16 s < utf16 t)
  textLess_asymm s t h := by
    have hlt := of_decide_eq_true h
    exact decide_eq_false (not_lt.mpr hlt.le)
  Single := Int
  ofInt n := n
  toSizeType x := x
  divide x n := x / n
  number x _ := x.repr.toList

def peerOf (client : String) : PeerInfo :=
  ⟨literal "10.0.0.1", literal client, false, false, 0, 0, 0, 0, 0⟩

theorem five_bananas : ¬ ∀ (_ : QtTables) (_ : QtTableItems) (p : Platform)
    (peer peer' : PeerInfo) (column : PeerColumn),
    Sortable (cell p peer column) (cell p peer' column) := by
  intro h
  obtain ⟨r, r', hless, -⟩ := h TorrentStorrage.asciiCase wholeItems .unix (peerOf "5 bananas")
    (peerOf "uTorrent") .client
  have hfault : lessThan (cell .unix (peerOf "5 bananas") .client)
      (cell .unix (peerOf "uTorrent") .client) = .error .indexOutOfRange := by
    rfl
  rw [hfault] at hless
  cases hless

/-- A percentage and a text that comes before it: both say less. -/
example : lessThan "5%".toList "10".toList = .ok (true, false) ∧
    lessThan "10".toList "5%".toList = .ok (true, false) := ⟨rfl, rfl⟩

end sample

end MyTableWidgetItem
end CuteTorrent
