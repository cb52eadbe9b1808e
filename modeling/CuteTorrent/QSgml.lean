import CuteTorrent.Library.Assoc
import CuteTorrent.SearchPage

/-! `QSgml`: how a page becomes a tree of tags. -/
namespace CuteTorrent

/-- What ends the reading of a page without a tree: a fault, or more rounds of a loop than
were allowed. -/
inductive Unread where
  | fault (f : Fault)
  | rounds
deriving DecidableEq

/-- A tag with the members that the search providers do not read. -/
structure SgmlTag extends QSgmlTag where
  Value : QString
  EndTagLength : Int

def charAt (s : QString) (position : Int) : Except Unread Char :=
  if position < 0 then .error (.fault .indexOutOfRange)
  else
    match s[position.toNat]? with
    | some c => .ok c
    | none => .error (.fault .indexOutOfRange)

/-- The place of the text, counted from `k`. -/
def findText (text : QString) : Nat → QString → Option Nat
  | k, [] => if text = [] then some k else none
  | k, c :: s => if text.isPrefixOf (c :: s) then some k else findText text (k + 1) s

def indexOf (text s : QString) (start : Int) : Int :=
  let start := if start < 0 then max (start + s.length) 0 else start
  match findText text start.toNat (s.drop start.toNat) with
  | some k => k
  | none => -1

/-- `lastIndexOf(QRegExp("[ \r\n\t]"))` -/
def lastIndexOfSpace (s : QString) : Int :=
  match s.reverse.findIdx? fun c => decide (c ∈ [' ', '\r', '\n', '\t']) with
  | some k => s.length - 1 - k
  | none => -1

def left (s : QString) (n : Int) : QString := if n < 0 then s else s.take n.toNat

namespace SgmlTag

def attributeValue (AtrString : QString) : Except Unread QString := do
  let AtrString := trimmed AtrString
  let first ← charAt AtrString 0
  let last ← charAt AtrString (AtrString.length - 1)
  if first = '"' ∨ last = '"' then return mid AtrString 1 (AtrString.length - 2)
  else if first = '\'' ∨ last = '\'' then return mid AtrString 1 (AtrString.length - 2)
  else return AtrString

/-- The constructor for the types whose text is a value. -/
def valued (Value : QString) (eType : TagType) (StartTagPos StartTagLength : Int) : SgmlTag :=
  ⟨⟨[], [], eType, StartTagPos, StartTagLength, StartTagPos⟩, Value, StartTagLength⟩

variable [QtConversions]

def toLower (s : QString) : QString := s.map QtConversions.toLower

/-- The loop of `SetNameAttributes`, which takes an equals sign in each round but the last. -/
def attributes : Nat → QString → QString → List (QString × QString) →
    Except Unread (List (QString × QString))
  | 0, _, _, _ => .error .rounds
  | rounds + 1, AttrName, AllAtr, Attributes => do
    let EndName := indexOf "=".toList AllAtr 0
    let PosQot := indexOf "\"".toList AllAtr 0
    let NameString := toLower AttrName
    let EndName :=
      if PosQot < EndName then
        indexOf "=".toList AllAtr (indexOf "\"".toList AllAtr (PosQot + 1) + 1)
      else EndName
    if EndName = -1 then
      let value ← attributeValue AllAtr
      return Assoc.insert NameString value Attributes
    else
      let StartName := lastIndexOfSpace (left AllAtr EndName)
      let value ← attributeValue (left AllAtr StartName)
      attributes rounds (trimmed (mid AllAtr StartName (EndName - StartName)))
        (trimmed (mid AllAtr (EndName + 1) (-1))) (Assoc.insert NameString value Attributes)

def SetNameAttributes (InnerTag : QString) : Except Unread (QString × List (QString × QString)) := do
  let sDummy := trimmed InnerTag
  let EndName := indexOf " ".toList sDummy 0
  let Name := toLower (trimmed (left sDummy EndName))
  let first ← charAt Name 0
  let Name := if first = '!' ∨ first = '/' then mid Name 1 (-1) else Name
  let AllAtr := trimmed (mid (trimmed sDummy) EndName (-1))
  let EndName := indexOf "=".toList AllAtr 0
  let AttrName := trimmed (left AllAtr EndName)
  let AllAtr := trimmed (mid AllAtr (EndName + 1) (-1))
  if EndName = -1 then return (Name, [])
  else
    let Attributes ← attributes (AllAtr.length + 1) AttrName AllAtr []
    return (Name, Attributes)

def named (InnerTag : QString) (eType : TagType) (StartTagPos StartTagLength : Int) :
    Except Unread SgmlTag := do
  let (Name, Attributes) ← SetNameAttributes InnerTag
  return ⟨⟨Attributes, Name, eType, StartTagPos, StartTagLength, StartTagPos⟩, [], StartTagLength⟩

end SgmlTag

namespace QSgml

/-- The first tag of every page, and the last; nothing sets their positions. -/
def docTag : SgmlTag := ⟨⟨[], "doctag".toList, .eVirtualBeginTag, 0, 0, 0⟩, [], 0⟩

def endTag : SgmlTag := ⟨⟨[], "endtag".toList, .eVirtualEndTag, 0, 0, 0⟩, [], 0⟩

/-- A tag that is not closed, with the children it has so far. It is the last child of its
parent. -/
structure OpenTag where
  tag : SgmlTag
  Children : List (RoseTree SgmlTag)

namespace OpenTag

def append (t : OpenTag) (children : List (RoseTree SgmlTag)) : OpenTag :=
  { t with Children := t.Children ++ children }

def node (t : OpenTag) : RoseTree SgmlTag := .node t.tag t.Children

/-- The tag as one that has no end: its children are its siblings. -/
def standalone (t : OpenTag) : List (RoseTree SgmlTag) :=
  .node { t.tag with tagType := .eStandalone } [] :: t.Children

def closed (t : OpenTag) (EndTagPos EndTagLength : Int) : RoseTree SgmlTag :=
  .node
    { t.tag with
      EndTagPos := EndTagPos
      EndTagLength := EndTagLength
      tagType := if t.Children = [] then .eStartEmpty else t.tag.tagType }
    t.Children

end OpenTag

/-- `pLastTag`, its ancestors from the nearest to the document, and where the last tag ends
and the reading goes on. -/
structure Reading where
  LastTag : OpenTag
  ancestors : List OpenTag
  iEnd : Int
  iPos : Int

/-- How the end of a tag is sought: the quoted texts are passed over. One that has no end
leads to the front of the page, or before it. -/
def FindEnd (HtmlString : QString) : Nat → Int → Except Unread Int
  | 0, _ => .error .rounds
  | rounds + 1, iPos =>
    if iPos < HtmlString.length then do
      let c ← charAt HtmlString iPos
      if c = '>' then return iPos
      else
        let iPos := if c = '\'' then indexOf "'".toList HtmlString (iPos + 1) else iPos
        let c ← charAt HtmlString iPos
        let iPos := if c = '"' then indexOf "\"".toList HtmlString (iPos + 1) else iPos
        FindEnd HtmlString rounds (iPos + 1)
    else return -1

/-- Once through the page from where the search begins, and once from its front. -/
def findEnd (HtmlString : QString) (iPos : Int) : Except Unread Int :=
  FindEnd HtmlString (2 * HtmlString.length + 2) iPos

namespace Reading

def appendLeaf (r : Reading) (tag : SgmlTag) : Reading :=
  { r with LastTag := r.LastTag.append [.node tag []] }

def HandleCdata (SgmlString : QString) (r : Reading) : Reading :=
  let iStart := r.iEnd + 1
  let iEnd := r.iPos
  let sDummy := trimmed (mid SgmlString iStart (iEnd - iStart))
  let r := { r with iEnd := iEnd }
  if sDummy.any fun c => !isSpace c then
    r.appendLeaf (.valued sDummy .eCdata iStart (iEnd - iStart))
  else r

def HandleComment (SgmlString : QString) (r : Reading) : Reading :=
  let iStart := r.iPos + 4
  let iEnd := indexOf "-->".toList SgmlString iStart
  let sDummy := trimmed (mid SgmlString iStart (iEnd - iStart))
  { r.appendLeaf (.valued sDummy .eComment (iStart - 4) (iEnd - iStart + 7)) with
    iEnd := iEnd + 2
    iPos := iEnd + 2 }

def HandleDoctype (SgmlString : QString) (r : Reading) : Except Unread Reading := do
  let iStart := r.iPos
  let iEnd ← findEnd SgmlString iStart
  let sDummy := trimmed (mid SgmlString (iStart + 2) (iEnd - iStart - 2))
  return { r.appendLeaf (.valued sDummy .eDoctype iStart (iEnd - iStart + 1)) with
    iEnd := iEnd
    iPos := iEnd }

/-- The tag that is closed, with its parent and the ancestors of this: the nearest of the
name, and the tags in between have no end. `DocTag` is no such tag. -/
def closeTag (Name : QString) (EndTagPos EndTagLength : Int) :
    OpenTag → List OpenTag → Option (OpenTag × List OpenTag)
  | _, [] => none
  | last, parent :: ancestors =>
    if last.tag.Name = Name then some (parent.append [last.closed EndTagPos EndTagLength], ancestors)
    else closeTag Name EndTagPos EndTagLength (parent.append last.standalone) ancestors

def HandleEndTag [QtConversions] (SgmlString : QString) (r : Reading) : Except Unread Reading := do
  let iStart := r.iPos
  let iEnd ← findEnd SgmlString iStart
  let (Name, _) ← SgmlTag.SetNameAttributes (mid SgmlString (iStart + 1) (iEnd - iStart - 1))
  let r := { r with iEnd := iEnd, iPos := iEnd }
  match closeTag Name iStart (iEnd - iStart + 1) r.LastTag r.ancestors with
  | some (LastTag, ancestors) => return { r with LastTag := LastTag, ancestors := ancestors }
  | none => return { r.appendLeaf endTag with iPos := -1 }

def HandleStartTag [QtConversions] (SgmlString : QString) (r : Reading) : Except Unread Reading := do
  let iStart := r.iPos
  let iEnd ← findEnd SgmlString iStart
  let sDummy := trimmed (mid SgmlString (iStart + 1) (iEnd - iStart - 1))
  let last ← charAt SgmlString (iEnd - 1)
  let r := { r with iEnd := iEnd, iPos := iEnd }
  if last = '/' then
    let pTag ← SgmlTag.named (left sDummy (sDummy.length - 1)) .eStandalone iStart (iEnd - iStart + 1)
    return r.appendLeaf pTag
  else
    let pTag ← SgmlTag.named sDummy .eStartTag iStart (iEnd - iStart + 1)
    return { r with LastTag := ⟨pTag, []⟩, ancestors := r.LastTag :: r.ancestors }

/-- The tags whose text is no markup. -/
def tagExeption : List QString := ["script".toList, "style".toList]

def exceptionPos [QtConversions] (SgmlString : QString) (Name : QString) (iPos : Int) : Int :=
  tagExeption.foldl (fun iPos sName =>
    if SgmlTag.toLower Name = sName then
      indexOf ("</".toList ++ sName) (SgmlTag.toLower SgmlString) iPos - 1
    else iPos) iPos

def HandleTag [QtConversions] (SgmlString : QString) (r : Reading) : Except Unread Reading := do
  let second ← charAt SgmlString (r.iPos + 1)
  if second = '!' then
    let third ← charAt SgmlString (r.iPos + 2)
    if third = '-' then
      let fourth ← charAt SgmlString (r.iPos + 3)
      if fourth = '-' then return r.HandleComment SgmlString
      else r.HandleDoctype SgmlString
    else r.HandleDoctype SgmlString
  else if second = '/' then r.HandleEndTag SgmlString
  else r.HandleStartTag SgmlString

/-- One round of `String2Sgml`; the page is read when `iPos` is -1. -/
def round [QtConversions] (SgmlString : QString) (r : Reading) : Except Unread Reading :=
  let iPos := indexOf "<".toList SgmlString (exceptionPos SgmlString r.LastTag.tag.Name r.iPos)
  if iPos = -1 then .ok { r.appendLeaf endTag with iPos := -1 }
  else
    let r := { r with iPos := iPos }
    if iPos > r.iEnd + 1 then (r.HandleCdata SgmlString).HandleTag SgmlString
    else r.HandleTag SgmlString

/-- The tree of a page that is read: each open tag is the last child of its parent. -/
def document : OpenTag → List OpenTag → RoseTree SgmlTag
  | last, [] => last.node
  | last, parent :: ancestors => document (parent.append [last.node]) ancestors

def loop [QtConversions] (SgmlString : QString) : Nat → Reading → Except Unread (RoseTree SgmlTag)
  | 0, _ => .error .rounds
  | rounds + 1, r => do
    let r ← r.round SgmlString
    if r.iPos = -1 then return document r.LastTag r.ancestors
    else loop SgmlString rounds r

end Reading

/-- The tree of a page; `iEnd` has no value before the first tag. -/
def String2Sgml [QtConversions] (rounds : Nat) (iEnd : Int) (SgmlString : QString) :
    Except Unread (RoseTree SgmlTag) :=
  Reading.loop SgmlString rounds ⟨⟨docTag, []⟩, [], iEnd, 0⟩

end QSgml
end CuteTorrent
