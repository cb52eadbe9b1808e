import CuteTorrent.Bencode

/-! `QDate`, `QTime` and `QDateTime`, and their texts by a format. -/
namespace CuteTorrent
open Bencode (number isDigit_of_mem_number number_ne_nil decimalValue_number)

def isLeapYear (year : Nat) : Bool :=
  if year < 1582 then decide (year % 4 = 0)
  else decide (year % 4 = 0 ∧ year % 100 ≠ 0 ∨ year % 400 = 0)

def daysInMonth (year month : Nat) : Nat :=
  if month = 2 then (if isLeapYear year then 29 else 28)
  else if month ∈ [4, 6, 9, 11] then 30
  else 31

/-- `QDate::isValid`. The 15th of October 1582 follows the 4th. -/
def isValidDate (year month day : Nat) : Prop :=
  1 ≤ year ∧ 1 ≤ month ∧ month ≤ 12 ∧ 1 ≤ day ∧ day ≤ daysInMonth year month ∧
    ¬ (year = 1582 ∧ month = 10 ∧ 4 < day ∧ day < 15)

instance (year month day : Nat) : Decidable (isValidDate year month day) :=
  inferInstanceAs (Decidable (_ ∧ _))

def isValidTime (hour minute second msec : Nat) : Prop :=
  hour < 24 ∧ minute < 60 ∧ second < 60 ∧ msec < 1000

instance (hour minute second msec : Nat) : Decidable (isValidTime hour minute second msec) :=
  inferInstanceAs (Decidable (_ ∧ _))

structure QDate where
  year : Nat
  month : Nat
  day : Nat
  valid : isValidDate year month day
deriving DecidableEq

structure QTime where
  hour : Nat
  minute : Nat
  second : Nat
  msec : Nat
  valid : isValidTime hour minute second msec
deriving DecidableEq

structure QDateTime where
  date : QDate
  time : QTime
deriving DecidableEq

def QDate.lessThan (a b : QDate) : Bool :=
  decide (a.year < b.year ∨ a.year = b.year ∧ (a.month < b.month ∨ a.month = b.month ∧ a.day < b.day))

def QTime.msecs (t : QTime) : Nat := ((t.hour * 60 + t.minute) * 60 + t.second) * 1000 + t.msec

namespace QDateTime

def lessThan (a b : QDateTime) : Bool :=
  if a.date ≠ b.date then a.date.lessThan b.date else decide (a.time.msecs < b.time.msecs)

def toSecond (d : QDateTime) : QDateTime :=
  ⟨d.date, ⟨d.time.hour, d.time.minute, d.time.second, 0,
    ⟨d.time.valid.1, d.time.valid.2.1, d.time.valid.2.2.1, by decide⟩⟩⟩

def moment (d : QDateTime) : Nat :=
  ((d.date.year * 13 + d.date.month) * 32 + d.date.day) * 86400000 + d.time.msecs

theorem daysInMonth_le (year month : Nat) : daysInMonth year month ≤ 31 := by
  rw [daysInMonth]
  split_ifs <;> omega

theorem msecs_lt (t : QTime) : t.msecs < 86400000 := by
  obtain ⟨hh, hm, hs, hms⟩ := t.valid
  rw [QTime.msecs]
  omega

theorem date_lessThan_iff (a b : QDate) : a.lessThan b = true ↔
    (a.year * 13 + a.month) * 32 + a.day < (b.year * 13 + b.month) * 32 + b.day := by
  obtain ⟨-, -, ham, -, had, -⟩ := a.valid
  obtain ⟨-, -, hbm, -, hbd, -⟩ := b.valid
  have ha := daysInMonth_le a.year a.month
  have hb := daysInMonth_le b.year b.month
  rw [QDate.lessThan, decide_eq_true_eq]
  omega

theorem lessThan_iff (a b : QDateTime) : a.lessThan b = true ↔ a.moment < b.moment := by
  have ha := msecs_lt a.time
  have hb := msecs_lt b.time
  rw [lessThan, moment, moment]
  split_ifs with hdate
  · have hne : (a.date.year * 13 + a.date.month) * 32 + a.date.day ≠
        (b.date.year * 13 + b.date.month) * 32 + b.date.day := by
      intro heq
      obtain ⟨-, -, ham, -, had, -⟩ := a.date.valid
      obtain ⟨-, -, hbm, -, hbd, -⟩ := b.date.valid
      have hda := daysInMonth_le a.date.year a.date.month
      have hdb := daysInMonth_le b.date.year b.date.month
      apply hdate
      cases hva : a.date
      cases hvb : b.date
      simp only [hva, hvb] at *
      congr 1 <;> omega
    rw [date_lessThan_iff]
    omega
  · rw [not_not.mp hdate, decide_eq_true_eq]
    omega

theorem moment_toSecond (d : QDateTime) : d.toSecond.moment = d.moment / 1000 * 1000 := by
  obtain ⟨-, -, -, hms⟩ := d.time.valid
  simp only [moment, toSecond, QTime.msecs]
  omega

end QDateTime

/-! ### Texts -/

inductive DateSection where
  | day
  | month
  | year
  | hour
  | minute
  | second
deriving DecidableEq

/-- A part of a format: `dd`, `MM`, `yyyy`, `hh`, `mm` or `ss`, or a character. -/
inductive FormatPart where
  | number (s : DateSection)
  | text (c : Char)

structure DateFields where
  year : Nat
  month : Nat
  day : Nat
  hour : Nat
  minute : Nat
  second : Nat

namespace DateSection

def width : DateSection → Nat
  | year => 4
  | _ => 2

def get (d : QDateTime) : DateSection → Nat
  | day => d.date.day
  | month => d.date.month
  | year => d.date.year
  | hour => d.time.hour
  | minute => d.time.minute
  | second => d.time.second

def set (n : Nat) (f : DateFields) : DateSection → DateFields
  | day => { f with day := n }
  | month => { f with month := n }
  | year => { f with year := n }
  | hour => { f with hour := n }
  | minute => { f with minute := n }
  | second => { f with second := n }

end DateSection

def zeroPadded (width n : Nat) : QString :=
  List.replicate (width - (number n).length) '0' ++ number n

def DateFields.toDateTime (f : DateFields) : Option QDateTime :=
  if hdate : isValidDate f.year f.month f.day then
    if htime : isValidTime f.hour f.minute f.second 0 then
      some ⟨⟨f.year, f.month, f.day, hdate⟩, ⟨f.hour, f.minute, f.second, 0, htime⟩⟩
    else none
  else none

def parseDate : List FormatPart → QString → DateFields → Option DateFields
  | [], [], f => some f
  | [], _ :: _, _ => none
  | .text _ :: _, [], _ => none
  | .text c :: format, d :: s, f => if d = c then parseDate format s f else none
  | .number sec :: format, s, f =>
    if (s.take sec.width).length = sec.width ∧ (s.take sec.width).all Char.isDigit then
      parseDate format (s.drop sec.width) (sec.set (decimalValue (s.take sec.width)) f)
    else none

namespace QDateTime

def toString (d : QDateTime) (format : List FormatPart) : QString :=
  format.flatMap fun
    | .number sec => zeroPadded sec.width (sec.get d)
    | .text c => [c]

/-- What the text leaves out is the first moment of 1900. -/
def fromString (s : QString) (format : List FormatPart) : Option QDateTime :=
  (parseDate format s ⟨1900, 1, 1, 0, 0, 0⟩).bind DateFields.toDateTime

def taskFormat : List FormatPart :=
  [.number .day, .text ':', .number .month, .text ':', .number .year, .text ' ', .number .hour,
    .text ':', .number .minute, .text ':', .number .second]

end QDateTime

theorem decimalValue_zeros (k : Nat) (s : QString) :
    decimalValue (List.replicate k '0' ++ s) = decimalValue s := by
  induction k with
  | zero => rfl
  | succ k ih => exact ih

theorem length_number_le {width n : Nat} (h : n < 10 ^ width) (hpos : 1 ≤ width) :
    (number n).length ≤ width := by
  rw [number, List.length_map, Bencode.decimal]
  split_ifs with hzero
  · exact hpos
  · rw [List.length_map, List.length_reverse]
    exact (Nat.digits_length_le_iff (by decide) n).mpr h

theorem zeroPadded_spec {width n : Nat} (h : n < 10 ^ width) (hpos : 1 ≤ width) :
    (zeroPadded width n).length = width ∧ (zeroPadded width n).all Char.isDigit = true ∧
      decimalValue (zeroPadded width n) = n := by
  refine ⟨?_, ?_, ?_⟩
  · have hle := length_number_le h hpos
    rw [zeroPadded, List.length_append, List.length_replicate]
    omega
  · rw [zeroPadded, List.all_append, Bool.and_eq_true, List.all_eq_true, List.all_eq_true]
    refine ⟨fun c hc => ?_, fun c hc => isDigit_of_mem_number hc⟩
    rw [List.eq_of_mem_replicate hc]
    rfl
  · rw [zeroPadded, decimalValue_zeros, decimalValue_number]

namespace QDateTime
variable {d : QDateTime}

theorem parseDate_toString (hfits : ∀ sec : DateSection, sec.get d < 10 ^ sec.width)
    (format : List FormatPart) (f : DateFields) : parseDate format (d.toString format) f =
      some (format.foldl (fun f part =>
        match part with
        | .number sec => sec.set (sec.get d) f
        | .text _ => f) f) := by
  induction format generalizing f with
  | nil => rfl
  | cons part format ih =>
    cases part with
    | text c =>
      have hcons : d.toString (.text c :: format) = c :: d.toString format := rfl
      rw [hcons, parseDate, if_pos rfl, ih, List.foldl_cons]
    | number sec =>
      have hcons : d.toString (.number sec :: format) =
          zeroPadded sec.width (sec.get d) ++ d.toString format := rfl
      obtain ⟨hlength, hdigits, hvalue⟩ :=
        zeroPadded_spec (hfits sec) (show 1 ≤ sec.width by cases sec <;> decide)
      have htake : (zeroPadded sec.width (sec.get d) ++ d.toString format).take sec.width =
          zeroPadded sec.width (sec.get d) := List.take_left' hlength
      rw [hcons, parseDate, htake, if_pos ⟨hlength, hdigits⟩, hvalue, List.drop_left' hlength, ih,
        List.foldl_cons]

/-- Up to the year 9999 the text gives the time back, to the second. -/
theorem fromString_toString (hyear : d.date.year ≤ 9999) :
    fromString (d.toString taskFormat) taskFormat = some d.toSecond := by
  obtain ⟨hpos, hm1, hm2, hd1, hd2, hgap⟩ := d.date.valid
  obtain ⟨hh, hmin, hs, hms⟩ := d.time.valid
  have hday := daysInMonth_le d.date.year d.date.month
  have hfits : ∀ sec : DateSection, sec.get d < 10 ^ sec.width := by
    intro sec
    cases sec <;> simp only [DateSection.get, DateSection.width] <;> omega
  rw [fromString, parseDate_toString hfits]
  have htime : isValidTime d.time.hour d.time.minute d.time.second 0 := ⟨hh, hmin, hs, by decide⟩
  exact (dif_pos d.date.valid).trans (dif_pos htime)

end QDateTime
end CuteTorrent
