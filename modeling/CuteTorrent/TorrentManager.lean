import CuteTorrent.Library.Disk
import CuteTorrent.Bencode
import CuteTorrent.TorrentStorrage

/-! `TorrentManager`: the files of CT_DATA, the session and the store. File names
are taken relative to CT_DATA. -/
namespace CuteTorrent

/-- `torrent_info`, as far as the client and its session read it. -/
structure TorrentInfo where
  infoHash : Sha1Hash
  name : QByteArray
  files : List QByteArray
  isValid : Bool
deriving DecidableEq

/-- What the constructor leaves when the file is empty. -/
def TorrentInfo.empty : TorrentInfo := ⟨.zero, [], [], false⟩

/-- The parts of libtorrent that are not opened here: the parser of a .torrent
file that is not empty, and the metadata a session takes out of resume data. -/
class Libtorrent where
  parseTorrentFile : QByteArray → Option TorrentInfo
  resumeInfo : QByteArray → Option TorrentInfo

inductive HashFile where
  | torrent
  | resume
deriving DecidableEq, Repr

def torrentSuffix : QString := ".torrent".toList

def HashFile.suffix : HashFile → QString
  | torrent => torrentSuffix
  | resume => ".resume".toList

def hashFile (h : Sha1Hash) (k : HashFile) : QString := h.hex ++ k.suffix

theorem hashFile_injective {g h : Sha1Hash} {i k : HashFile} (he : hashFile g i = hashFile h k) :
    g = h ∧ i = k := by
  have hlen : g.hex.length = h.hex.length := by simp
  obtain ⟨hhex, hsuffix⟩ := List.append_inj he hlen
  refine ⟨Sha1Hash.hex_injective hhex, ?_⟩
  cases i <;> cases k <;> first | rfl | exact absurd hsuffix (by decide)

def pathResume : QString := "path.resume".toList

/-- The file system below CT_DATA and `QTextStream`, which reads path.resume. -/
class DataFolder extends Naming QString where
  resolve_hashFile : ∀ h k, resolve (hashFile h k) = hashFile h k
  resolve_pathResume : resolve pathResume = pathResume
  entryOrder : List QString → List QString
  entryOrder_perm : ∀ names, (entryOrder names).Perm names
  readLines : QByteArray → List QString

structure AddTorrentParams where
  ti : TorrentInfo
  name : QByteArray
  savePath : QByteArray
  filePriorities : List Nat
  resumeData : QByteArray
  sequentialDownload : Bool
deriving DecidableEq

structure SessionTorrent where
  info : TorrentInfo
  params : AddTorrentParams
deriving DecidableEq

namespace SessionTorrent

def infoHash (s : SessionTorrent) : Sha1Hash := s.info.infoHash

def name (s : SessionTorrent) : QByteArray := if s.info.isValid then s.info.name else s.params.name

end SessionTorrent

abbrev Session := List SessionTorrent

namespace Session

def find (session : Session) (h : Sha1Hash) : Option SessionTorrent :=
  List.find? (fun s => decide (s.infoHash = h)) session

def Has (session : Session) (h : Sha1Hash) : Prop := ∃ s ∈ session, s.infoHash = h

instance (session : Session) (h : Sha1Hash) : Decidable (session.Has h) :=
  inferInstanceAs (Decidable (∃ s ∈ session, s.infoHash = h))

def removeTorrent (session : Session) (h : Sha1Hash) : Session :=
  session.filter fun s => decide (s.infoHash ≠ h)

/-- The metadata of the torrent that `add_torrent` would create. -/
def infoOf [Libtorrent] (ti : TorrentInfo) (resumeData : QByteArray) : TorrentInfo :=
  if ti.isValid ∨ resumeData = [] then ti else (Libtorrent.resumeInfo resumeData).getD ti

/-- `session::add_torrent` under `flag_duplicate_is_error`; none is its error code. -/
def addTorrent [Libtorrent] (session : Session) (p : AddTorrentParams) : Option SessionTorrent :=
  if p.ti.isValid ∧ p.ti.files = [] then none
  else
    let info := infoOf p.ti p.resumeData
    if session.Has info.infoHash then none else some ⟨info, p⟩

end Session

/-- `libtorrent::load_file` and the client's copy of it give up above this size. -/
def sizeLimit : Nat := 8000000

/-- A UTF-8 file name as libtorrent hands it to the file system. -/
def nativePath (path : QByteArray) : QString := fromUtf8 (cString path)

theorem nativePath_toUtf8 {path : QString} (h : Char.ofNat 0 ∉ path) :
    nativePath (toUtf8 path) = path := by
  have hc : cString (toUtf8 path) = toUtf8 path :=
    (cString_eq_self_iff _).mpr fun _ hb => ne_zero_of_mem_toUtf8 h hb
  rw [nativePath, hc, fromUtf8_toUtf8]

section
variable [DataFolder]

abbrev CtData := Disk QString QByteArray

/-- `torrent_info(filename, ec)`; none is an error code. -/
def torrentInfo [Libtorrent] (disk : CtData) (path : QString) : Option TorrentInfo :=
  match disk.read path with
  | none => none
  | some buf =>
    if buf.length > sizeLimit then none
    else if buf = [] then some .empty
    else Libtorrent.parseTorrentFile buf

def loadFile (disk : CtData) (path : QString) : Option QByteArray :=
  (disk.read path).filter fun buf => decide (buf.length ≤ sizeLimit)

end

structure AddFields where
  name : QString
  group : QString
  savePath : QString
deriving DecidableEq

def keyTorrentName : QByteArray := literal "torrent_name"

def keyTorrentGroup : QByteArray := literal "torrent_group"

def keySavePath : QByteArray := literal "save_path"

namespace TorrentManager

/-- `if (entry* i = e.find_key(key)) text = fromStdString(i->string())` -/
def textField (p : Platform) (e : Entry) (key : QByteArray) (text : QString) :
    Except Fault QString := do
  match ← e.findKey key with
  | some i => return p.fromStdString (← i.stringValue)
  | none => return text

def resumeFields (p : Platform) (buf : QByteArray) (given : AddFields) : Except Fault AddFields := do
  let e ← Bencode.bdecode buf
  let name ← textField p e keyTorrentName given.name
  let group ← textField p e keyTorrentGroup given.group
  let savePath ← textField p e keySavePath given.savePath
  return ⟨name, group, savePath⟩

theorem typeError_of_textField {p : Platform} {e : Entry} {key : QByteArray} {text : QString}
    {f : Fault} (h : textField p e key text = .error f) : f = .typeError := by
  obtain h | ⟨i, -, h⟩ := bind_eq_error h
  · exact Bencode.typeError_of_findKey h
  · cases i with
    | none => cases h
    | some i =>
      obtain h | ⟨s, -, h⟩ := bind_eq_error h
      · exact Bencode.typeError_of_stringValue h
      · cases h

theorem fault_resumeFields {p : Platform} {buf : QByteArray} {given : AddFields} {f : Fault}
    (h : resumeFields p buf given = .error f) : f = .readPastEnd ∨ f = .typeError := by
  obtain h | ⟨e, -, h⟩ := bind_eq_error h
  · left
    unfold Bencode.bdecode at h
    split at h <;> cases h
    rfl
  · right
    obtain h | ⟨name, -, h⟩ := bind_eq_error h
    · exact typeError_of_textField h
    · obtain h | ⟨group, -, h⟩ := bind_eq_error h
      · exact typeError_of_textField h
      · obtain h | ⟨savePath, -, h⟩ := bind_eq_error h
        · exact typeError_of_textField h
        · cases h

def filePrioritiesVector (p : Platform) (files : List QByteArray) (filePriorities : List (QString × Nat)) :
    List Nat :=
  if filePriorities = [] then []
  else files.map fun path =>
    (Assoc.find (p.toNativeSeparators (p.fromCString path)) filePriorities).getD 1

/-- `remap_files` with the new name. -/
def rename (p : Platform) (name : QString) (t : TorrentInfo) : TorrentInfo :=
  if name = [] then t else { t with name := p.toStdString name }

section
variable (p : Platform) (name : QString) (t : TorrentInfo)

@[simp] theorem infoHash_rename : (rename p name t).infoHash = t.infoHash := by
  unfold rename
  split_ifs <;> rfl

@[simp] theorem isValid_rename : (rename p name t).isValid = t.isValid := by
  unfold rename
  split_ifs <;> rfl

@[simp] theorem files_rename : (rename p name t).files = t.files := by
  unfold rename
  split_ifs <;> rfl

end

def addParams (p : Platform) (t : TorrentInfo) (fields : AddFields)
    (filePriorities : List (QString × Nat)) (buf : QByteArray) (sequntial : Bool) :
    AddTorrentParams where
  ti := rename p fields.name t
  name := p.toStdString fields.name
  savePath := cString (toUtf8 fields.savePath)
  filePriorities := filePrioritiesVector p t.files filePriorities
  resumeData := buf
  sequentialDownload := sequntial

/-- `combine_path(CT_DATA, name + ".torrent")`, the layout of older versions. -/
def namedFile (p : Platform) (name : QByteArray) : QString :=
  p.fromCString (name ++ literal ".torrent")

structure AddCall where
  path : QString
  savePath : QString
  name : QString
  filePriorities : List (QString × Nat)
  group : QString
  sequntial : Bool

def AddCall.fields (c : AddCall) : AddFields := ⟨c.name, c.group, c.savePath⟩

section
variable [DataFolder]

structure World where
  disk : CtData
  session : Session
  storrage : TorrentStorrage
  deleted : List Sha1Hash

/-- `new Torrent(h, group)` asks the handle for its metadata, which throws when
there is none. -/
def newTorrent (s : SessionTorrent) (group : QString) : Except Fault Torrent :=
  if s.info.isValid then .ok ⟨⟨true, s.infoHash, .initial, false⟩, group⟩ else .error .noMetadata

/-- The new torrent's file is kept under its hash, the one under its name goes. -/
def keepTorrentFile (p : Platform) (disk : CtData) (path : QString) (ti : TorrentInfo) : CtData :=
  (disk.copy path (hashFile ti.infoHash .torrent)).remove (namedFile p ti.name)

def resumeData (disk : CtData) (t : TorrentInfo) : QByteArray :=
  (loadFile disk (hashFile t.infoHash .resume)).getD []

/-- What the call finds out before it turns to the session. -/
def prepare (p : Platform) (w : World) (c : AddCall) (t : TorrentInfo) :
    Except Fault (AddTorrentParams × QString) :=
  match loadFile w.disk (hashFile t.infoHash .resume) with
  | none => .ok (addParams p t c.fields c.filePriorities [] c.sequntial, c.group)
  | some buf => do
    let fields ← resumeFields p buf c.fields
    return (addParams p t fields c.filePriorities buf c.sequntial, fields.group)

theorem prepare_ok {p : Platform} {w : World} {c : AddCall} {t : TorrentInfo}
    {params : AddTorrentParams} {group : QString} (h : prepare p w c t = .ok (params, group)) :
    ∃ fields : AddFields, group = fields.group ∧
      params = addParams p t fields c.filePriorities (resumeData w.disk t) c.sequntial := by
  unfold prepare at h
  cases hl : loadFile w.disk (hashFile t.infoHash .resume) with
  | none =>
    simp only [hl, Except.ok.injEq, Prod.mk.injEq] at h
    refine ⟨c.fields, h.2.symm, ?_⟩
    rw [resumeData, hl, ← h.1]
    rfl
  | some buf =>
    simp only [hl] at h
    obtain ⟨fields, -, h⟩ := bind_eq_ok h
    simp only [Pure.pure, Except.pure, Except.ok.injEq, Prod.mk.injEq] at h
    refine ⟨fields, h.2.symm, ?_⟩
    rw [resumeData, hl, ← h.1]
    rfl

variable [Libtorrent]

def AddTorrent (p : Platform) (w : World) (c : AddCall) : World × Except Fault Bool :=
  match torrentInfo w.disk (nativePath (toUtf8 c.path)) with
  | none => (w, .ok false)
  | some t =>
    match prepare p w c t with
    | .error f => (w, .error f)
    | .ok (params, group) =>
      match w.session.addTorrent params with
      | none => (w, .ok false)
      | some s =>
        let added := { w with session := w.session ++ [s] }
        match newTorrent s group with
        | .error f => (added, .error f)
        | .ok torrent =>
          ({ added with
              storrage := w.storrage.append torrent
              disk := keepTorrentFile p w.disk c.path params.ti }, .ok true)

inductive AddOutcome (p : Platform) (w : World) (c : AddCall) : World × Except Fault Bool → Prop
  | unreadable (ht : torrentInfo w.disk (nativePath (toUtf8 c.path)) = none) :
    AddOutcome p w c (w, .ok false)
  | badResume {t f} (ht : torrentInfo w.disk (nativePath (toUtf8 c.path)) = some t)
    (hp : prepare p w c t = .error f) : AddOutcome p w c (w, .error f)
  | rejected {t params group} (ht : torrentInfo w.disk (nativePath (toUtf8 c.path)) = some t)
    (hp : prepare p w c t = .ok (params, group)) (hs : w.session.addTorrent params = none) :
    AddOutcome p w c (w, .ok false)
  | noMetadata {t params group s} (ht : torrentInfo w.disk (nativePath (toUtf8 c.path)) = some t)
    (hp : prepare p w c t = .ok (params, group)) (hs : w.session.addTorrent params = some s)
    (hv : s.info.isValid = false) :
    AddOutcome p w c ({ w with session := w.session ++ [s] }, .error .noMetadata)
  | added {t params group s} (ht : torrentInfo w.disk (nativePath (toUtf8 c.path)) = some t)
    (hp : prepare p w c t = .ok (params, group)) (hs : w.session.addTorrent params = some s)
    (hv : s.info.isValid = true) :
    AddOutcome p w c
      ({ w with
          session := w.session ++ [s]
          storrage := w.storrage.append ⟨⟨true, s.infoHash, .initial, false⟩, group⟩
          disk := keepTorrentFile p w.disk c.path params.ti }, .ok true)

theorem addTorrent_outcome (p : Platform) (w : World) (c : AddCall) :
    AddOutcome p w c (AddTorrent p w c) := by
  rw [AddTorrent]
  cases ht : torrentInfo w.disk (nativePath (toUtf8 c.path)) with
  | none => exact .unreadable ht
  | some t =>
    cases hp : prepare p w c t with
    | error f =>
      simp only [hp]
      exact .badResume ht hp
    | ok r =>
      obtain ⟨params, group⟩ := r
      cases hs : w.session.addTorrent params with
      | none =>
        simp only [hp, hs]
        exact .rejected ht hp hs
      | some s =>
        cases hv : s.info.isValid with
        | false =>
          simp only [hp, hs, newTorrent, hv]
          exact .noMetadata ht hp hs hv
        | true =>
          simp only [hp, hs, newTorrent, hv]
          exact .added ht hp hs hv

/-- The ways in which a call of `AddTorrent` may end early. -/
theorem fault_addTorrent {p : Platform} {w : World} {c : AddCall} {f : Fault}
    (h : (AddTorrent p w c).2 = .error f) :
    f = .readPastEnd ∨ f = .typeError ∨ f = .noMetadata := by
  cases ho : AddTorrent p w c with
  | mk w' r =>
    have houtcome := addTorrent_outcome p w c
    rw [ho] at h houtcome
    cases houtcome with
    | unreadable ht => cases h
    | badResume ht hp =>
      cases h
      unfold prepare at hp
      split at hp
      · cases hp
      · obtain hp | ⟨fields, -, hp⟩ := bind_eq_error hp
        · exact (fault_resumeFields hp).imp_right .inl
        · cases hp
    | rejected ht hp hs => cases h
    | noMetadata ht hp hs hv =>
      cases h
      exact .inr (.inr rfl)
    | added ht hp hs hv => cases h

/-- A handle is named by its hash; an invalid one answers with the zero hash and
no name. -/
def RemoveTorrent (p : Platform) (w : World) (h : Sha1Hash) (delFiles : Bool) : World :=
  let handle := w.session.find h
  let infoHash := (handle.map SessionTorrent.infoHash).getD .zero
  let name := (handle.map SessionTorrent.name).getD []
  { disk := ((w.disk.remove (hashFile infoHash .torrent)).remove (namedFile p name)).remove
      (hashFile infoHash .resume)
    session := w.session.removeTorrent h
    storrage := w.storrage.remove infoHash.hex
    deleted := if delFiles ∧ handle.isSome then w.deleted ++ [h] else w.deleted }

/-! ### The start of the program -/

/-- One line of path.resume: hash, save path and, in newer files, the group. -/
def savedPath (line : QString) : Except Fault (Option (QString × QString × QString)) :=
  match line.splitOn '|' with
  | [_] => .error .indexOutOfRange
  | [infoHash, savePath] => .ok (some (infoHash, savePath, []))
  | [infoHash, savePath, group] => .ok (some (infoHash, savePath, group))
  | _ => .ok none

def savedPaths : List QString → List (QString × QString × QString) →
    Except Fault (List (QString × QString × QString))
  | [], saved => .ok saved
  | line :: lines, saved => do
    match ← savedPath line with
    | some (infoHash, info) => savedPaths lines (Assoc.insert infoHash info saved)
    | none => savedPaths lines saved

def isTorrentFile (p : Platform) (name : QString) : Bool :=
  torrentSuffix.isSuffixOf (name.map Char.toLower) && !name.contains p.separator &&
    !name.contains (Char.ofNat 0) && !(decide (p = .unix) && decide (name.head? = some '.'))

def entryList (p : Platform) (disk : CtData) : List QString :=
  DataFolder.entryOrder (disk.names.filter (isTorrentFile p))

def entryCall (p : Platform) (saved : List (QString × QString × QString)) (w : World)
    (entry : QString) : AddCall :=
  let ti := (torrentInfo w.disk (nativePath (p.toStdString entry))).getD .empty
  let info := (Assoc.find ti.infoHash.hex saved).getD ([], [])
  ⟨entry, info.1, [], [], info.2, false⟩

def loadEntries (p : Platform) (saved : List (QString × QString × QString)) :
    World → List QString → World × Except Fault Unit
  | w, [] => (w, .ok ())
  | w, entry :: entries =>
    match AddTorrent p w (entryCall p saved w entry) with
    | (w', .ok _) => loadEntries p saved w' entries
    | (w', .error f) => (w', .error f)

/-- path.resume is read once and removed. -/
def readPathResume (disk : CtData) :
    Except Fault (List (QString × QString × QString) × CtData) :=
  match disk.read pathResume with
  | none => .ok ([], disk)
  | some buf => do
    let saved ← savedPaths (DataFolder.readLines buf) []
    return (saved, disk.remove pathResume)

def initSession (p : Platform) (w : World) : World × Except Fault Unit :=
  match readPathResume w.disk with
  | .error f => (w, .error f)
  | .ok (saved, disk) => loadEntries p saved { w with disk := disk } (entryList p w.disk)

end

/-! ### A folder and two torrents for the examples -/

/-- Names are taken as they are, the lines of a text end in a line feed. -/
@[reducible] def plainFolder : DataFolder where
  resolve := id
  resolve_resolve _ := rfl
  resolve_hashFile _ _ := rfl
  resolve_pathResume := rfl
  entryOrder := id
  entryOrder_perm _ := List.Perm.refl _
  readLines buf := (fromUtf8 buf).splitOn '\n'

def plainWorld (files : List (QString × QByteArray)) : @World plainFolder :=
  letI := plainFolder
  ⟨⟨files, fun _ _ => rfl⟩, [], .initial .none, []⟩

def singleFile (name : QString) : QByteArray :=
  Bencode.bencode (.dict [(literal "info", .dict [(literal "length", .int 1),
    (literal "name", .string (toUtf8 name)), (literal "piece length", .int 16384),
    (literal "pieces", .string (List.replicate 20 97))])])

def torrentB : TorrentInfo where
  infoHash := ⟨[231, 91, 36, 100, 0, 126, 54, 24, 149, 230, 116, 108, 253, 98, 175, 201, 155, 101,
    223, 216], rfl⟩
  name := literal "b"
  files := [literal "b"]
  isValid := true

def torrentA : TorrentInfo where
  infoHash := ⟨[34, 204, 67, 228, 1, 213, 117, 60, 104, 179, 142, 72, 196, 132, 207, 0, 142, 110,
    74, 70], rfl⟩
  name := toUtf8 torrentB.infoHash.hex
  files := [toUtf8 torrentB.infoHash.hex]
  isValid := true

@[reducible] def sampleLibtorrent : Libtorrent where
  parseTorrentFile buf :=
    if buf = singleFile "b".toList then some torrentB
    else if buf = singleFile torrentB.infoHash.hex then some torrentA
    else none
  resumeInfo _ := none

end TorrentManager
end CuteTorrent
