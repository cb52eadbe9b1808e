import CuteTorrent.InitSession
import CuteTorrent.SaveFile

/-! From `onClose` to the next `initSession`: what of a torrent's save path, name
and group comes back. -/
namespace CuteTorrent
namespace TorrentManager
open Bencode
open Naming (resolve)
open SaveFile (Outcome Save contentAfter overwritten save_file save_file_snd)

/-! ### The texts on their way through the codecs -/

/-- The save path is read as UTF-8 and handed on as a C string. -/
theorem savePath_survives_iff (p : Platform) (s : QByteArray) :
    cString (toUtf8 (p.fromStdString s)) = s ↔ ∃ path, Char.ofNat 0 ∉ path ∧ toUtf8 path = s := by
  constructor
  · intro h
    rw [cString_toUtf8] at h
    refine ⟨_, fun hc => ?_, h⟩
    simpa using List.mem_takeWhile_imp hc
  · rintro ⟨path, hzero, rfl⟩
    rw [p.fromStdString_toUtf8, cString_toUtf8_eq_self hzero]

theorem name_survives_iff (p : Platform) (s : QByteArray) :
    p.toStdString (p.fromStdString s) = s ↔ ∃ name, toUtf8 name = s :=
  toUtf8_fromUtf8_iff s

/-! ### A save into the folder -/

section
variable [DataFolder]

def saveFile (disk : CtData) (name : QString) (save : Save) : CtData :=
  if save.outcome.opens then
    disk.write name (overwritten (disk.read name) (save.v.take save.outcome.written))
  else disk

theorem read_saveFile (disk : CtData) (name s : QString) (save : Save) :
    (saveFile disk name save).read s =
      if resolve s = resolve name then contentAfter (disk.read name) save else disk.read s := by
  rw [saveFile, contentAfter]
  by_cases hopens : save.outcome.opens = true
  · simp only [if_pos hopens, Disk.read_write]
  · simp only [if_neg hopens]
    split_ifs with hs
    · rw [Disk.read, hs, ← Disk.read]
    · rfl

/-- The folder as `save_file` sees it: both layers take a name as UTF-8. -/
def fileSystem (disk : CtData) : FileSystem QString := fun s => Assoc.find s disk.files

instance : FileLayers QString := ⟨fun b => resolve (nativePath b), fun b => resolve (nativePath b)⟩

theorem fileSystem_saveFile (disk : CtData) {name : QString} (hname : Char.ofNat 0 ∉ name)
    (save : Save) : fileSystem (saveFile disk name save) =
      (save_file (fileSystem disk) (toUtf8 name) save.v save.outcome).2 := by
  have hopened : FileLayers.opened (toUtf8 name) = resolve name := by
    change resolve (nativePath (toUtf8 name)) = _
    rw [nativePath_toUtf8 hname]
  have hread : fileSystem disk (resolve name) = disk.read name := rfl
  rw [save_file_snd, hopened, hread]
  funext s
  rw [fileSystem, saveFile, contentAfter, Function.update_apply]
  by_cases hopens : save.outcome.opens = true
  · simp only [if_pos hopens, Disk.write, Assoc.find_insert]
    rfl
  · simp only [if_neg hopens]
    split_ifs with hs
    · rw [hs]
      rfl
    · rfl

end

/-! ### The resume file -/

/-- The resume data of a `save_resume_data_alert`: a dictionary in order, with
the save path. -/
structure ResumeEntry where
  entries : List (QByteArray × Entry)
  savePath : QByteArray
  fits : Fits 100 (.dict entries)
  savePath_eq : Assoc.find keySavePath entries = some (.string savePath)

theorem length_le_bencodeDict {d : List (QByteArray × Entry)} {k s : QByteArray}
    (h : (k, .string s) ∈ d) : s.length ≤ (bencodeDict d).length := by
  induction d with
  | nil => exact absurd h (by simp)
  | cons q d ih =>
    obtain ⟨j, e⟩ := q
    rw [bencodeDict, List.length_append, List.length_append]
    cases List.mem_cons.mp h with
    | inl h =>
      obtain ⟨-, rfl⟩ := Prod.mk.inj h
      have hstring : (bencode (.string s)).length = (decimal s.length).length + (s.length + 1) := by
        simp [bencode, writeString]
      omega
    | inr h =>
      have hle := ih h
      omega

theorem fits_insert_string {d : List (QByteArray × Entry)} (h : Fits 100 (.dict d)) {k s : QByteArray}
    (hk : k.length < 2 ^ 31) (hs : s.length < 2 ^ 31) :
    Fits 100 (.dict (Assoc.insert k (.string s) d)) := by
  refine ⟨Assoc.pairwise_insert (fun _ _ => List.lt_asymm) (fun _ _ _ => List.lt_trans) h.1 k _, ?_⟩
  intro q hq
  cases Assoc.mem_insert hq with
  | inl heq =>
    subst heq
    exact ⟨hk, hs⟩
  | inr hq => exact h.2 q hq

section
variable [DataFolder] (p : Platform)

def entryToSave (w : World) (h : Sha1Hash) (rd : ResumeEntry) : Entry :=
  match w.storrage.value h.hex with
  | none => .dict rd.entries
  | some torrent =>
    .dict (Assoc.insert keyTorrentName
      (.string (((w.session.find h).map SessionTorrent.name).getD []))
      (Assoc.insert keyTorrentGroup (.string (p.toStdString torrent.group)) rd.entries))

def bytesToSave (w : World) (h : Sha1Hash) (rd : ResumeEntry) : QByteArray :=
  bencode (entryToSave p w h rd)

/-- Whatever `save_file` returns is ignored. -/
def saveResumeData (w : World) (h : Sha1Hash) (rd : ResumeEntry)
    (o : Outcome (bytesToSave p w h rd)) : World :=
  { w with disk := saveFile w.disk (hashFile h .resume) ⟨bytesToSave p w h rd, o⟩ }

def resumeFile (w : World) (h : Sha1Hash) (rd : ResumeEntry) : QByteArray :=
  overwritten (w.disk.read (hashFile h .resume)) (bytesToSave p w h rd)

theorem read_saveResumeData {w : World} {h : Sha1Hash} {rd : ResumeEntry}
    {o : Outcome (bytesToSave p w h rd)} (hopens : o.opens = true)
    (hwritten : o.written = (bytesToSave p w h rd).length) :
    (saveResumeData p w h rd o).disk.read (hashFile h .resume) = some (resumeFile p w h rd) := by
  rw [saveResumeData, read_saveFile, if_pos rfl, contentAfter, if_pos hopens, hwritten,
    List.take_length, resumeFile]

/-- Whatever fits the size limit of the next start is read there as it was
written, with or without the end of a longer file behind it. -/
theorem bdecode_resumeFile {w : World} {h : Sha1Hash} {rd : ResumeEntry}
    (hsize : (resumeFile p w h rd).length ≤ sizeLimit) :
    bdecode (resumeFile p w h rd) = .ok (entryToSave p w h rd) := by
  have hbytes : (bytesToSave p w h rd).length ≤ sizeLimit := by
    rw [resumeFile, overwritten, List.length_append] at hsize
    omega
  rw [resumeFile, overwritten, bytesToSave]
  apply bdecode_bencode_append
  unfold bytesToSave entryToSave at hbytes
  unfold entryToSave
  cases hv : w.storrage.value h.hex with
  | none => exact rd.fits
  | some torrent =>
    simp only [hv] at hbytes ⊢
    rw [bencode, List.length_cons, List.length_append] at hbytes
    have hshort : ∀ k s, Assoc.find k (Assoc.insert keyTorrentName
        (.string (((w.session.find h).map SessionTorrent.name).getD []))
        (Assoc.insert keyTorrentGroup (.string (p.toStdString torrent.group)) rd.entries)) =
          some (.string s) → s.length < 2 ^ 31 := by
      intro k s hf
      have hle := length_le_bencodeDict (Assoc.mem_of_find hf)
      simp only [sizeLimit] at hbytes
      omega
    have hgroup := hshort keyTorrentGroup (p.toStdString torrent.group) (by
      rw [Assoc.find_insert_of_ne (by decide), Assoc.find_insert_self])
    have hname := hshort keyTorrentName _ (Assoc.find_insert_self _ _ _)
    exact fits_insert_string (fits_insert_string rd.fits (by decide) hgroup) (by decide) hname

theorem resumeFields_resumeFile {w : World} {h : Sha1Hash} {rd : ResumeEntry} {torrent : Torrent}
    (hstored : w.storrage.value h.hex = some torrent)
    (hsize : (resumeFile p w h rd).length ≤ sizeLimit) (given : AddFields) :
    resumeFields p (resumeFile p w h rd) given =
      .ok ⟨p.fromStdString (((w.session.find h).map SessionTorrent.name).getD []),
        torrent.group, p.fromStdString rd.savePath⟩ := by
  have hname : keySavePath ≠ keyTorrentName ∧ keySavePath ≠ keyTorrentGroup ∧
      keyTorrentGroup ≠ keyTorrentName := by decide
  rw [resumeFields, bdecode_resumeFile p hsize, entryToSave, hstored]
  simp [textField, Entry.findKey, Entry.dictionary, Entry.stringValue, Assoc.find_insert,
    rd.savePath_eq, hname.1, hname.2.1, hname.2.2, Bind.bind, Except.bind, Pure.pure, Except.pure]

end

section
variable [DataFolder] (p : Platform)

theorem length_group_lt {w : World} {h : Sha1Hash} {torrent : Torrent}
    (hstored : w.storrage.value h.hex = some torrent) (rd : ResumeEntry) :
    (p.toStdString torrent.group).length < (resumeFile p w h rd).length := by
  have hfind : Assoc.find keyTorrentGroup (Assoc.insert keyTorrentName
      (.string (((w.session.find h).map SessionTorrent.name).getD []))
      (Assoc.insert keyTorrentGroup (.string (p.toStdString torrent.group)) rd.entries)) =
        some (.string (p.toStdString torrent.group)) := by
    rw [Assoc.find_insert_of_ne (by decide), Assoc.find_insert_self]
  have hle := length_le_bencodeDict (Assoc.mem_of_find hfind)
  simp only [resumeFile, overwritten, bytesToSave, entryToSave, hstored, bencode,
    List.length_append, List.length_cons]
  omega

end

/-! ### The next start -/

section
variable [DataFolder] [Libtorrent] (p : Platform)

def Restored (w : World) (c : AddCall) (h : Sha1Hash) (savePath name : QByteArray) (group : QString) :
    Prop :=
  ∃ s torrent, (AddTorrent p w c).1.session.find h = some s ∧ s.params.savePath = savePath ∧
    s.params.name = name ∧ (AddTorrent p w c).1.storrage.value h.hex = some torrent ∧
    torrent.group = group

theorem addTorrent_of_prepare {w : World} {c : AddCall} {t : TorrentInfo} {fields : AddFields}
    {buf : QByteArray} (ht : torrentInfo w.disk (nativePath (toUtf8 c.path)) = some t)
    (hv : t.isValid = true) (hfiles : t.files ≠ []) (hnew : ¬ w.session.Has t.infoHash)
    (hp : prepare p w c t =
      .ok (addParams p t fields c.filePriorities buf c.sequntial, fields.group)) :
    AddTorrent p w c =
      ({ w with
          session := w.session ++
            [⟨rename p fields.name t, addParams p t fields c.filePriorities buf c.sequntial⟩]
          storrage := w.storrage.append ⟨⟨true, t.infoHash, .initial, false⟩, fields.group⟩
          disk := keepTorrentFile p w.disk c.path (rename p fields.name t) }, .ok true) := by
  have hinfo : Session.infoOf (rename p fields.name t) buf = rename p fields.name t :=
    infoOf_of_isValid (by simpa using hv) buf
  have hadd : w.session.addTorrent (addParams p t fields c.filePriorities buf c.sequntial) =
      some ⟨rename p fields.name t, addParams p t fields c.filePriorities buf c.sequntial⟩ := by
    simp only [Session.addTorrent, addParams, files_rename, hinfo, infoHash_rename]
    rw [if_neg fun hc => hfiles hc.2, if_neg hnew]
  rw [AddTorrent]
  simp only [ht, hp, hadd, newTorrent, isValid_rename, hv, if_true, SessionTorrent.infoHash,
    infoHash_rename]
  rfl

theorem restored_iff_of_prepare {w : World} {c : AddCall} {t : TorrentInfo} {fields : AddFields}
    {buf : QByteArray} (ht : torrentInfo w.disk (nativePath (toUtf8 c.path)) = some t)
    (hv : t.isValid = true) (hfiles : t.files ≠ []) (hnew : ¬ w.session.Has t.infoHash)
    (hstep : InStep w)
    (hp : prepare p w c t = .ok (addParams p t fields c.filePriorities buf c.sequntial, fields.group))
    (savePath name : QByteArray) (group : QString) :
    Restored p w c t.infoHash savePath name group ↔
      cString (toUtf8 fields.savePath) = savePath ∧ p.toStdString fields.name = name ∧
        fields.group = group := by
  have hresult := addTorrent_of_prepare p ht hv hfiles hnew hp
  have hstored : w.storrage.hasTorrent t.infoHash.hex ≠ true := fun hc => hnew ((hstep _).mpr hc)
  have hfind : (AddTorrent p w c).1.session.find t.infoHash =
      some ⟨rename p fields.name t, addParams p t fields c.filePriorities buf c.sequntial⟩ := by
    rw [← infoHash_rename p fields.name t] at hnew
    rw [hresult, ← infoHash_rename p fields.name t]
    exact find_append_self hnew
  have hgroup : (AddTorrent p w c).1.storrage.value t.infoHash.hex =
      some ⟨⟨true, t.infoHash, .initial, false⟩, fields.group⟩ := by
    rw [hresult]
    exact TorrentStorrage.value_append_self (s := w.storrage)
      (t := ⟨⟨true, t.infoHash, .initial, false⟩, fields.group⟩) hstored
  constructor
  · intro ⟨s, torrent, hs, hpath, hname, htorrent, hg⟩
    obtain rfl := Option.some.inj (hfind.symm.trans hs)
    obtain rfl := Option.some.inj (hgroup.symm.trans htorrent)
    exact ⟨hpath, hname, hg⟩
  · intro ⟨hpath, hname, hg⟩
    exact ⟨_, _, hfind, hpath, hname, hgroup, hg⟩

/-- The client starts again on the files it left, and comes to the torrent. All
bytes of the entry have reached the file. -/
structure Restarts (w : World) (h : Sha1Hash) (rd : ResumeEntry) (o : Outcome (bytesToSave p w h rd))
    (torrent : Torrent) (s : SessionTorrent) (w' : World) (t : TorrentInfo) : Prop where
  stored : w.storrage.value h.hex = some torrent
  running : w.session.find h = some s
  opens : o.opens = true
  written : o.written = (bytesToSave p w h rd).length
  resumeFile : w'.disk.read (hashFile h .resume) =
    (saveResumeData p w h rd o).disk.read (hashFile h .resume)
  torrentFile : torrentInfo w'.disk (hashFile h .torrent) = some t
  sameHash : t.infoHash = h
  isValid : t.isValid = true
  hasFiles : t.files ≠ []
  notYet : ¬ w'.session.Has h
  inStep : InStep w'

/-- A save path without a zero character and a name come back if the file is read
at all; otherwise path.resume decides. -/
def Survives (file : QByteArray) (c : AddCall) (savePath name : QByteArray) (group : QString) : Prop :=
  (file.length ≤ sizeLimit ∧ (∃ path, Char.ofNat 0 ∉ path ∧ toUtf8 path = savePath) ∧
    ∃ text, toUtf8 text = name) ∨
  (sizeLimit < file.length ∧ cString (toUtf8 c.savePath) = savePath ∧ name = [] ∧ c.group = group)

section
variable {w w' : World} {rd : ResumeEntry} {t : TorrentInfo}
  (hread : w'.disk.read (hashFile t.infoHash .resume) = some (resumeFile p w t.infoHash rd))
include hread

theorem prepare_of_fits (hsize : (resumeFile p w t.infoHash rd).length ≤ sizeLimit) {torrent : Torrent}
    {s : SessionTorrent} (hstored : w.storrage.value t.infoHash.hex = some torrent)
    (hrunning : w.session.find t.infoHash = some s) (saved : List (QString × QString × QString)) :
    prepare p w' (entryCall p saved w' (hashFile t.infoHash .torrent)) t =
      .ok (addParams p t ⟨p.fromStdString s.name, torrent.group, p.fromStdString rd.savePath⟩ []
        (resumeFile p w t.infoHash rd) false, torrent.group) := by
  have hload : loadFile w'.disk (hashFile t.infoHash .resume) = some (resumeFile p w t.infoHash rd) := by
    simp [loadFile, hread, hsize]
  simp only [prepare, hload, resumeFields_resumeFile p hstored hsize, hrunning]
  rfl

theorem prepare_of_large (hlarge : sizeLimit < (resumeFile p w t.infoHash rd).length)
    (saved : List (QString × QString × QString)) :
    prepare p w' (entryCall p saved w' (hashFile t.infoHash .torrent)) t =
      .ok (addParams p t (entryCall p saved w' (hashFile t.infoHash .torrent)).fields [] [] false,
        (entryCall p saved w' (hashFile t.infoHash .torrent)).fields.group) := by
  have hload : loadFile w'.disk (hashFile t.infoHash .resume) = none := by
    simp [loadFile, hread, hlarge]
  simp only [prepare, hload]
  rfl

end

/-- A torrent keeps its save path, name and group over a restart exactly when the
first two are UTF-8 and the file is not too long. -/
theorem restored_iff {w w' : World} {h : Sha1Hash} {rd : ResumeEntry}
    {o : Outcome (bytesToSave p w h rd)} {torrent : Torrent} {s : SessionTorrent} {t : TorrentInfo}
    (hr : Restarts p w h rd o torrent s w' t) (saved : List (QString × QString × QString)) :
    Restored p w' (entryCall p saved w' (hashFile h .torrent)) h rd.savePath s.name torrent.group ↔
      Survives (resumeFile p w h rd) (entryCall p saved w' (hashFile h .torrent)) rd.savePath s.name
        torrent.group := by
  obtain ⟨hstored, hrunning, hopens, hwritten, hfile, ht, rfl, hv, hfiles, hnew, hstep⟩ := hr
  have hpath : torrentInfo w'.disk (nativePath (toUtf8
      (entryCall p saved w' (hashFile t.infoHash .torrent)).path)) = some t := by
    have hnative := nativePath_hashFile t.infoHash
    simp only [entryCall, hnative, ht]
  have hread : w'.disk.read (hashFile t.infoHash .resume) = some (resumeFile p w t.infoHash rd) := by
    rw [hfile, read_saveResumeData p hopens hwritten]
  by_cases hsize : (resumeFile p w t.infoHash rd).length ≤ sizeLimit
  · have hp := prepare_of_fits p hread hsize hstored hrunning saved
    rw [restored_iff_of_prepare p hpath hv hfiles hnew hstep hp, savePath_survives_iff,
      name_survives_iff, Survives]
    simp [hsize, Nat.not_lt.mpr hsize]
  · have hlarge := Nat.lt_of_not_le hsize
    have hp := prepare_of_large p hread hlarge saved
    have hname : (entryCall p saved w' (hashFile t.infoHash .torrent)).fields.name = [] := rfl
    rw [restored_iff_of_prepare p hpath hv hfiles hnew hstep hp, Survives, hname, p.toStdString_nil,
      eq_comm (a := [])]
    simp only [hsize, hlarge, false_and, true_and, false_or]
    rfl

/-- Whatever its texts are, a torrent comes back as it was if the next start reads
its resume file. -/
theorem restored_of_size {w w' : World} {h : Sha1Hash} {rd : ResumeEntry}
    {o : Outcome (bytesToSave p w h rd)} {torrent : Torrent} {s : SessionTorrent} {t : TorrentInfo}
    (hr : Restarts p w h rd o torrent s w' t) (saved : List (QString × QString × QString))
    {path name : QString} (hzero : Char.ofNat 0 ∉ path) (hpath : rd.savePath = toUtf8 path)
    (hname : s.name = toUtf8 name) (hsize : (resumeFile p w h rd).length ≤ sizeLimit) :
    Restored p w' (entryCall p saved w' (hashFile h .torrent)) h rd.savePath s.name torrent.group :=
  (restored_iff p hr saved).mpr (.inl ⟨hsize, ⟨path, hzero, hpath.symm⟩, name, hname.symm⟩)

end

/-! ### A torrent with a Cyrillic save path -/

def onlySavePath (savePath : QByteArray) (h : savePath.length < 2 ^ 31) : ResumeEntry where
  entries := [(keySavePath, .string savePath)]
  savePath := savePath
  fits := ⟨by simp, by simpa [Fits, keySavePath] using ⟨by decide, h⟩⟩
  savePath_eq := by simp [Assoc.find_cons]

def wholeSave (v : QByteArray) : Outcome v := ⟨true, v.length, Nat.le_refl _, false⟩

def moviesPath : QString := "D:\\Фильмы".toList

def savedEntry : ResumeEntry := onlySavePath (toUtf8 moviesPath) (by decide +kernel)

def runningTorrent (group : QString) : Torrent := ⟨⟨true, torrentB.infoHash, .initial, false⟩, group⟩

def runningSession : SessionTorrent where
  info := torrentB
  params := ⟨torrentB, [], toUtf8 moviesPath, [], [], false⟩

/-- A longer resume file is there from before. -/
def running (group : QString) : @World plainFolder :=
  letI := plainFolder
  { plainWorld [(hashFile torrentB.infoHash .torrent, singleFile "b".toList),
      (hashFile torrentB.infoHash .resume, List.replicate 200 101)] with
    session := [runningSession]
    storrage := (TorrentStorrage.initial .none).append (runningTorrent group) }

def restarted (p : Platform) (group : QString) : @World plainFolder :=
  letI := plainFolder
  atStart (saveResumeData p (running group) torrentB.infoHash savedEntry (wholeSave _)).disk .none

theorem running_restarts (p : Platform) (group : QString) :
    @Restarts plainFolder sampleLibtorrent p (running group) torrentB.infoHash savedEntry
      (wholeSave _) (runningTorrent group) runningSession (restarted p group) torrentB := by
  let _ := plainFolder
  let _ := sampleLibtorrent
  have hstored : (running group).storrage.value (runningTorrent group).getInfoHash =
      some (runningTorrent group) :=
    TorrentStorrage.value_append_self (by simp [TorrentStorrage.initial, TorrentStorrage.hasTorrent,
      Assoc.contains])
  have hread : (restarted p group).disk.read (hashFile torrentB.infoHash .torrent) =
      (running group).disk.read (hashFile torrentB.infoHash .torrent) := by
    rw [restarted, atStart, saveResumeData, read_saveFile]
    rw [if_neg (resolve_resume_ne torrentB.infoHash torrentB.infoHash).symm]
  have hparsed : torrentInfo (running group).disk (hashFile torrentB.infoHash .torrent) =
      some torrentB := by
    have hplain : torrentInfo (running []).disk (hashFile torrentB.infoHash .torrent) =
        some torrentB := by decide +kernel
    exact hplain
  refine ⟨hstored, rfl, rfl, rfl, rfl, ?_, rfl, rfl, by decide, ?_, inStep_atStart _ _⟩
  · rw [← hparsed]
    exact torrentInfo_congr hread
  · simp [restarted, atStart, Session.Has]

/-- With a Cyrillic group too, and the end of the older file behind the entry. -/
theorem cyrillic_restored : @Restored plainFolder sampleLibtorrent .windows
    (restarted .windows "Кино".toList)
    (@entryCall plainFolder sampleLibtorrent .windows [] (restarted .windows "Кино".toList)
      (hashFile torrentB.infoHash .torrent))
    torrentB.infoHash (toUtf8 moviesPath) (literal "b") "Кино".toList :=
  @restored_of_size plainFolder sampleLibtorrent .windows _ _ _ _ _ _ _ _
    (running_restarts .windows "Кино".toList) [] moviesPath "b".toList (by decide +kernel) rfl
    rfl (by decide +kernel)

theorem not_restored_of_length (p : Platform) (group : QString) (hne : group ≠ [])
    (hlong : sizeLimit ≤ (toUtf8 group).length) :
    ¬ @Restored plainFolder sampleLibtorrent p (restarted p group)
      (@entryCall plainFolder sampleLibtorrent p [] (restarted p group)
        (hashFile torrentB.infoHash .torrent))
      torrentB.infoHash savedEntry.savePath runningSession.name group := by
  let _ := plainFolder
  let _ := sampleLibtorrent
  intro h
  have hsurvives := (restored_iff p (running_restarts p group) []).mp h
  have hlt := length_group_lt p (running_restarts p group).stored savedEntry
  cases hsurvives with
  | inl hread => exact absurd hread.1 (Nat.not_le.mpr (Nat.lt_of_le_of_lt hlong hlt))
  | inr hfallback => exact hne hfallback.2.2.2.symm

theorem large_group_lost :
    ¬ ∀ (_ : DataFolder) (_ : Libtorrent) (p : Platform) (w w' : World) (h : Sha1Hash)
      (rd : ResumeEntry) (o : Outcome (bytesToSave p w h rd)) (torrent : Torrent)
      (s : SessionTorrent) (t : TorrentInfo) (saved : List (QString × QString × QString))
      (path name : QString), Restarts p w h rd o torrent s w' t → Char.ofNat 0 ∉ path →
        rd.savePath = toUtf8 path → s.name = toUtf8 name →
        Restored p w' (entryCall p saved w' (hashFile h .torrent)) h rd.savePath s.name
          torrent.group := by
  intro hall
  refine not_restored_of_length .unix (List.replicate sizeLimit 'a') ?_ ?_
    (hall plainFolder sampleLibtorrent .unix _ _ _ _ _ _ _ _ [] moviesPath "b".toList
      (running_restarts .unix _) (by decide +kernel) rfl rfl)
  · intro hnil
    have hlen := congrArg List.length hnil
    rw [List.length_replicate] at hlen
    exact absurd hlen (by decide)
  · have hle := length_le_length_toUtf8 (List.replicate sizeLimit 'a')
    rwa [List.length_replicate] at hle

end TorrentManager
end CuteTorrent
