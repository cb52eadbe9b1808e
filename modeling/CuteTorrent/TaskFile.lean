import CuteTorrent.Library.Assoc
import CuteTorrent.QDateTime
import CuteTorrent.Scheduller

/-! schedulertasks.xml: the queue of the scheduler, written and read again. -/
namespace CuteTorrent
open Bencode (number isDigit_of_mem_number number_ne_nil decimalValue_number)

/-! ### Tokens of a document -/

inductive XmlToken where
  | startDocument
  | endDocument
  | startElement (name : QString) (attributes : List (QString × QString))
  | endElement (name : QString)
  | characters (text : QString)

namespace XmlToken

/-- `QXmlStreamReader::name`, empty where the token has none. -/
def name : XmlToken → QString
  | startElement n _ => n
  | endElement n => n
  | _ => []

def isMarkup : XmlToken → Bool
  | characters _ => false
  | _ => true

end XmlToken

inductive IsContent : List XmlToken → Prop
  | nil : IsContent []
  | element (name : QString) {attributes : List (QString × QString)} {inner rest : List XmlToken} :
    (Assoc.keys attributes).Nodup → IsContent inner → IsContent rest →
      IsContent (.startElement name attributes :: inner ++ .endElement name :: rest)

/-- What `QXmlStreamReader` makes of a document that `QXmlStreamWriter` wrote: the
same tokens, with blanks between them. -/
class QXmlStream where
  reread : List XmlToken → List XmlToken
  filter_reread (root : QString) {inner : List XmlToken} (h : IsContent inner) :
    (reread (.startDocument :: .startElement root [] :: inner ++ [.endElement root, .endDocument])).filter
        XmlToken.isMarkup =
      .startDocument :: .startElement root [] :: inner ++ [.endElement root, .endDocument]

@[reducible] def plainXml : QXmlStream where
  reread doc := doc.filter XmlToken.isMarkup
  filter_reread root inner h := by
    have hmarkup : ∀ token ∈ inner, token.isMarkup = true := by
      induction h with
      | nil => exact fun _ h => absurd h List.not_mem_nil
      | element name _ _ _ ihinner ihrest =>
        intro token htoken
        rw [List.cons_append, List.mem_cons, List.mem_append, List.mem_cons] at htoken
        rcases htoken with rfl | htoken | rfl | htoken
        · rfl
        · exact ihinner token htoken
        · rfl
        · exact ihrest token htoken
    rw [List.filter_filter]
    refine List.filter_eq_self.mpr fun token htoken => ?_
    simp only [Bool.and_self]
    simp only [List.cons_append, List.mem_cons, List.mem_append, List.not_mem_nil, or_false] at htoken
    rcases htoken with rfl | rfl | htoken | rfl | rfl
    · rfl
    · rfl
    · exact hmarkup token htoken
    · rfl
    · rfl

/-! ### Tasks -/

/-- `SchedulerTask`, with its start as it is kept; none where it is not valid. -/
structure DatedTask where
  iType : TaskType
  name : QString
  limit : Int32
  begin : Option QDateTime

namespace DatedTask

def isLimit (type : TaskType) : Bool := type = .limitDownload || type = .limitUpload

/-- The constructor. It sets the limit only of the types that have one, and leaves
what lies there of the others. -/
def create (lies : Int32) (name : QString) (type : TaskType) (limit : Int32)
    (begin : Option QDateTime) : DatedTask :=
  ⟨type, name, if isLimit type then limit else lies, begin⟩

/-- `operator<`. An invalid start is before every other. -/
def lessThan (a b : DatedTask) : Bool :=
  match a.begin, b.begin with
  | some d, some e => d.lessThan e
  | none, some _ => true
  | _, none => false

end DatedTask

def intNumber (n : Int) : QString := if n < 0 then '-' :: number n.natAbs else number n.natAbs

namespace TaskFile

def SchedulerTypeToString : TaskType → QString
  | .startAll => "START_ALL".toList
  | .pauseAll => "PAUSE_ALL".toList
  | .limitUpload => "LIMIT_UL".toList
  | .limitDownload => "LIMIT_DL".toList
  | .unknown => []

def attributesOf (t : DatedTask) : List (QString × QString) :=
  [("TYPE".toList, SchedulerTypeToString t.iType), ("NAME".toList, t.name),
    ("LIMIT".toList, intNumber t.limit.toInt),
    ("TBEGIN".toList, t.begin.elim [] fun d => d.toString QDateTime.taskFormat)]

def tasksDocument (tasks : List DatedTask) : List XmlToken :=
  .startDocument :: .startElement "tasks".toList [] ::
    (tasks.flatMap fun t => [.startElement "task".toList (attributesOf t), .endElement "task".toList]) ++
      [.endElement "tasks".toList, .endDocument]

/-- The tasks are sorted in place, and the file is written. -/
def SaveSchedullerQueue [QtAlgorithms] (tasks : List DatedTask) : List DatedTask × List XmlToken :=
  let tasks := QtAlgorithms.qSort DatedTask.lessThan tasks
  (tasks, tasksDocument tasks)

def typeOfString (val : QString) : TaskType :=
  if val = "PAUSE_ALL".toList then .pauseAll
  else if val = "START_ALL".toList then .startAll
  else if val = "LIMIT_DL".toList then .limitDownload
  else if val = "LIMIT_UL".toList then .limitUpload
  else .unknown

def readTask (lies : Int32) (attributes : List (QString × QString)) : DatedTask :=
  let type := ((Assoc.find "TYPE".toList attributes).map typeOfString).getD .unknown
  let name := (Assoc.find "NAME".toList attributes).getD []
  let limit := ((Assoc.find "LIMIT".toList attributes).map fun val => (toInt val).getD 0).getD 0
  let begin := (Assoc.find "TBEGIN".toList attributes).bind fun val =>
    QDateTime.fromString val QDateTime.taskFormat
  .create lies name type (Int32.ofInt limit) begin

def readTokens (lies : Nat → Int32) : List DatedTask → List XmlToken → List DatedTask
  | res, [] => res
  | res, token :: tokens =>
    if token.name = "tasks".toList then readTokens lies res tokens
    else if token.name ≠ "task".toList then readTokens lies res tokens
    else
      match token with
      | .startElement _ attributes =>
        readTokens lies (res ++ [readTask (lies res.length) attributes]) tokens
      | _ => readTokens lies res tokens

/-- Without the file the queue is empty. -/
def GetSchedullerQueue (lies : Nat → Int32) (file : Option (List XmlToken)) : List DatedTask :=
  file.elim [] (readTokens lies [])

def Keepable (t : DatedTask) : Prop :=
  t.iType ≠ .unknown ∧ ∃ d, t.begin = some d ∧ 1000 ≤ d.date.year ∧ d.date.year ≤ 9999

/-- The same task, with its start to the second; the limit counts only where the type
has one. -/
structure SameTask (t t' : DatedTask) : Prop where
  iType : t'.iType = t.iType
  name : t'.name = t.name
  limit : DatedTask.isLimit t.iType = true → t'.limit = t.limit
  begin : t'.begin = t.begin.map QDateTime.toSecond

def InOrder (tasks : List DatedTask) : Prop := tasks.Pairwise fun a b => b.lessThan a = false

end TaskFile

/-! ### The order of the starts -/

namespace DatedTask

def moment (begin : Option QDateTime) : Nat := begin.elim 0 fun d => d.moment + 1

theorem lessThan_iff (a b : DatedTask) : a.lessThan b = true ↔ moment a.begin < moment b.begin := by
  rw [lessThan]
  cases a.begin with
  | none => cases b.begin <;> simp [moment]
  | some d =>
    cases b.begin with
    | none => simp [moment]
    | some e => simp [moment, QDateTime.lessThan_iff]

theorem lessThan_eq_false_iff (a b : DatedTask) :
    a.lessThan b = false ↔ moment b.begin ≤ moment a.begin := by
  rw [← Bool.not_eq_true, lessThan_iff, not_lt]

theorem moment_toSecond_mono {a b : Option QDateTime} (h : moment a ≤ moment b) :
    moment (a.map QDateTime.toSecond) ≤ moment (b.map QDateTime.toSecond) := by
  cases a with
  | none => exact Nat.zero_le _
  | some d =>
    cases b with
    | none => exact absurd h (by simp [moment])
    | some e =>
      have hde : d.moment ≤ e.moment := Nat.le_of_succ_le_succ h
      have hseconds := Nat.div_le_div_right (c := 1000) hde
      simp only [moment, Option.map_some, Option.elim_some, QDateTime.moment_toSecond]
      omega

end DatedTask

theorem isSpace_of_mem_number {n : Nat} {c : Char} (h : c ∈ number n) : isSpace c = false :=
  isSpace_of_isDigit (isDigit_of_mem_number h)

theorem toInt_intNumber {n : Int} (h : -2 ^ 31 ≤ n ∧ n < 2 ^ 31) : toInt (intNumber n) = some n := by
  rw [intNumber]
  by_cases hneg : n < 0
  · have hdigits : (number n.natAbs).all Char.isDigit = true :=
      List.all_eq_true.mpr fun c hc => isDigit_of_mem_number hc
    have hspace : ∀ c ∈ '-' :: number n.natAbs, isSpace c = false := by
      intro c hc
      rcases List.mem_cons.mp hc with rfl | hc
      · decide
      · exact isSpace_of_mem_number hc
    have hvalue : -((n.natAbs : Nat) : Int) = n := by omega
    have hsign : toInt ('-' :: number n.natAbs) =
        if number n.natAbs ≠ [] ∧ (number n.natAbs).all Char.isDigit = true then
          if -2 ^ 31 ≤ -(decimalValue (number n.natAbs) : Int) ∧
              -(decimalValue (number n.natAbs) : Int) < 2 ^ 31 then
            some (-(decimalValue (number n.natAbs) : Int))
          else none
        else none := by
      rw [toInt, trimmed_eq_self hspace]
      rfl
    rw [if_pos hneg, hsign, if_pos ⟨number_ne_nil _, hdigits⟩, decimalValue_number, hvalue, if_pos h]
  · have hvalue : ((n.natAbs : Nat) : Int) = n := by omega
    rw [if_neg hneg, toInt_of_digits (number_ne_nil _) (fun c hc => isDigit_of_mem_number hc) (by
      rw [decimalValue_number]
      omega), decimalValue_number, hvalue]

namespace TaskFile

theorem typeOfString_SchedulerTypeToString (type : TaskType) :
    typeOfString (SchedulerTypeToString type) = type := by
  cases type <;> rfl

theorem sameTask_readTask {t : DatedTask} (h : Keepable t) (lies : Int32) :
    SameTask t (readTask lies (attributesOf t)) := by
  obtain ⟨-, d, hd, -, hyear⟩ := h
  refine ⟨typeOfString_SchedulerTypeToString t.iType, rfl, fun hlimit => ?_, ?_⟩
  · have hread : toInt (intNumber t.limit.toInt) = some t.limit.toInt :=
      toInt_intNumber ⟨t.limit.le_toInt, t.limit.toInt_lt⟩
    have htype : (readTask lies (attributesOf t)).limit =
        if DatedTask.isLimit (typeOfString (SchedulerTypeToString t.iType)) then
          Int32.ofInt ((toInt (intNumber t.limit.toInt)).getD 0) else lies := rfl
    rw [htype, typeOfString_SchedulerTypeToString, if_pos hlimit, hread]
    exact Int32.ofInt_toInt t.limit
  · have hbegin : (readTask lies (attributesOf t)).begin = QDateTime.fromString
        (t.begin.elim [] fun d => d.toString QDateTime.taskFormat) QDateTime.taskFormat := rfl
    rw [hbegin, hd]
    exact QDateTime.fromString_toString hyear

/-- Characters have no name, and are passed over. -/
theorem readTokens_filter (lies : Nat → Int32) (res : List DatedTask) (tokens : List XmlToken) :
    readTokens lies res (tokens.filter XmlToken.isMarkup) = readTokens lies res tokens := by
  induction tokens generalizing res with
  | nil => rfl
  | cons token tokens ih =>
    cases token with
    | characters text => exact ih res
    | _ =>
      rw [List.filter_cons_of_pos rfl]
      simp only [readTokens, ih]

theorem readTokens_tasks (lies : Nat → Int32) {tasks : List DatedTask} (h : ∀ t ∈ tasks, Keepable t)
    (res : List DatedTask) (rest : List XmlToken) : ∃ read, List.Forall₂ SameTask tasks read ∧
      readTokens lies res ((tasks.flatMap fun t =>
        [.startElement "task".toList (attributesOf t), .endElement "task".toList]) ++ rest) =
        readTokens lies (res ++ read) rest := by
  induction tasks generalizing res with
  | nil => exact ⟨[], .nil, by rw [List.append_nil]; rfl⟩
  | cons t tasks ih =>
    have hsame := sameTask_readTask (h t List.mem_cons_self) (lies res.length)
    obtain ⟨read, hread, heq⟩ := ih (fun t' ht' => h t' (List.mem_cons_of_mem t ht'))
      (res ++ [readTask (lies res.length) (attributesOf t)])
    refine ⟨readTask (lies res.length) (attributesOf t) :: read, .cons hsame hread, ?_⟩
    rw [List.append_assoc, List.singleton_append] at heq
    rw [← heq]
    rfl

theorem isContent_tasks (tasks : List DatedTask) : IsContent (tasks.flatMap fun t =>
    [.startElement "task".toList (attributesOf t), .endElement "task".toList]) := by
  induction tasks with
  | nil => exact .nil
  | cons t tasks ih =>
    have hkeys : (Assoc.keys (attributesOf t)).Nodup := by
      change ["TYPE".toList, "NAME".toList, "LIMIT".toList, "TBEGIN".toList].Nodup
      decide
    exact .element "task".toList hkeys .nil ih

theorem InOrder.of_sameTask {tasks read : List DatedTask} (hread : List.Forall₂ SameTask tasks read)
    (h : InOrder tasks) : InOrder read := by
  have hbegin : read.map DatedTask.begin = tasks.map fun t => t.begin.map QDateTime.toSecond := by
    clear h
    induction hread with
    | nil => rfl
    | cons ht _ ih => rw [List.map_cons, List.map_cons, ht.begin, ih]
  have hmoments : (read.map DatedTask.begin).Pairwise fun a b =>
      DatedTask.moment a ≤ DatedTask.moment b := by
    rw [hbegin, List.pairwise_map]
    refine h.imp fun {a b} hab => DatedTask.moment_toSecond_mono ?_
    exact (DatedTask.lessThan_eq_false_iff b a).mp hab
  exact (List.pairwise_map.mp hmoments).imp fun {a b} hab =>
    (DatedTask.lessThan_eq_false_iff b a).mpr hab

theorem inOrder_sorted [QtAlgorithms] (tasks : List DatedTask) :
    InOrder (QtAlgorithms.qSort DatedTask.lessThan tasks) := by
  refine QtAlgorithms.qSort_pairwise _ (fun a b hab => ?_) (fun a b c hab hbc => ?_) tasks
  · rw [DatedTask.lessThan_iff] at hab
    exact (DatedTask.lessThan_eq_false_iff b a).mpr hab.le
  · rw [DatedTask.lessThan_eq_false_iff] at hab hbc ⊢
    exact hab.trans hbc

section
variable [QXmlStream]

theorem getSchedullerQueue_tasksDocument (lies : Nat → Int32) (tasks : List DatedTask)
    (h : ∀ t ∈ tasks, Keepable t) : List.Forall₂ SameTask tasks
      (GetSchedullerQueue lies (some (QXmlStream.reread (tasksDocument tasks)))) := by
  obtain ⟨read, hread, heq⟩ := readTokens_tasks lies h [] [.endElement "tasks".toList, .endDocument]
  rw [GetSchedullerQueue, Option.elim_some, ← readTokens_filter, tasksDocument,
    QXmlStream.filter_reread _ (isContent_tasks tasks)]
  rw [List.nil_append] at heq
  have hend : readTokens lies read [.endElement "tasks".toList, .endDocument] = read := rfl
  have hstart : readTokens lies [] (.startDocument :: .startElement "tasks".toList [] ::
      (tasks.flatMap fun t =>
        [.startElement "task".toList (attributesOf t), .endElement "task".toList]) ++
      [.endElement "tasks".toList, .endDocument]) = read := heq.trans hend
  rw [hstart]
  exact hread

/-- The queue that is saved is read back: the tasks in the order of their starts. -/
theorem queue_survives [QtAlgorithms] (lies : Nat → Int32) {tasks : List DatedTask}
    (h : ∀ t ∈ tasks, Keepable t) :
    ∃ order, order.Perm tasks ∧ InOrder order ∧ List.Forall₂ SameTask order
        (GetSchedullerQueue lies (some (QXmlStream.reread (SaveSchedullerQueue tasks).2))) ∧
      InOrder (GetSchedullerQueue lies (some (QXmlStream.reread (SaveSchedullerQueue tasks).2))) := by
  have hperm := QtAlgorithms.qSort_perm DatedTask.lessThan tasks
  have hread := getSchedullerQueue_tasksDocument lies _ fun t ht => h t (hperm.mem_iff.mp ht)
  exact ⟨_, hperm, inOrder_sorted tasks, hread, (inOrder_sorted tasks).of_sameTask hread⟩

end

def newYear (year : Nat) (h : isValidDate year 1 1) : QDateTime :=
  ⟨⟨year, 1, 1, h⟩, ⟨0, 0, 0, 0, by decide⟩⟩

def sampleTasks : List DatedTask :=
  [⟨.limitDownload, "slow".toList, 1024, some (newYear 2021 (by decide))⟩,
    ⟨.pauseAll, "stop".toList, 0, some (newYear 2020 (by decide))⟩]

theorem queue_survives_sample : let _ := plainXml
    let _ := insertionSorting
    ∃ order, order.Perm sampleTasks ∧ InOrder order ∧ List.Forall₂ SameTask order
        (GetSchedullerQueue (fun _ => 7) (some (QXmlStream.reread (SaveSchedullerQueue sampleTasks).2))) ∧
      InOrder (GetSchedullerQueue (fun _ => 7)
        (some (QXmlStream.reread (SaveSchedullerQueue sampleTasks).2))) :=
  let _ := plainXml
  let _ := insertionSorting
  queue_survives _ fun t ht => by
    rcases List.mem_cons.mp ht with rfl | ht
    · exact ⟨by decide, _, rfl, by decide, by decide⟩
    · obtain rfl := List.mem_singleton.mp ht
      exact ⟨by decide, _, rfl, by decide, by decide⟩

end TaskFile
end CuteTorrent
