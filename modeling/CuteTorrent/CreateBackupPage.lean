import CuteTorrent.ApplyBackupPage

/-! `CreateBackupPage::createBackup`, and the folder from which the client starts when the
backup is applied without new paths. -/
namespace CuteTorrent
open TorrentManager ApplyBackupPage

namespace CreateBackupPage

/-- What `QDirIterator` comes to: the files that are not in a folder below CT_DATA, and,
on Unix, whose name does not begin with a dot. -/
def listed (p : Platform) (file_path : QString) : Bool :=
  match p with
  | .windows => decide ('/' ∉ file_path ∧ '\\' ∉ file_path)
  | .unix => decide ('/' ∉ file_path ∧ file_path.head? ≠ some '.')

theorem listed_pathResume (p : Platform) : listed p pathResume = true := by
  cases p <;> decide

section
variable [DataFolder] (p : Platform) (d : CtData)

def createBackup : List (QString × QByteArray) :=
  (d.names.filter (listed p)).filterMap fun file_path => (d.read file_path).map fun ba => (file_path, ba)

def readListed (s : QString) : Option QByteArray :=
  if listed p (Naming.resolve s) = true then d.read s else none

variable {p d}

theorem mem_createBackup {f : QString × QByteArray} :
    f ∈ createBackup p d ↔ Naming.resolve f.1 = f.1 ∧ readListed p d f.1 = some f.2 := by
  obtain ⟨name, data⟩ := f
  rw [createBackup, List.mem_filterMap]
  constructor
  · rintro ⟨file_path, hmem, hfile⟩
    obtain ⟨ba, hread, hpair⟩ := Option.map_eq_some_iff.mp hfile
    obtain ⟨rfl, rfl⟩ := Prod.mk.inj hpair
    obtain ⟨hin, hlisted⟩ := List.mem_filter.mp hmem
    have hname := ((d.mem_names_iff file_path).mp hin).1
    exact ⟨hname, by rw [readListed, if_pos (hname.symm ▸ hlisted), hread]⟩
  · rintro ⟨hname, hread⟩
    rw [readListed] at hread
    split_ifs at hread with hlisted
    rw [hname] at hlisted
    refine ⟨name, List.mem_filter.mpr ⟨(d.mem_names_iff name).mpr ⟨hname, by rw [hread]; rfl⟩, hlisted⟩, ?_⟩
    rw [hread]
    rfl

theorem find_createBackup {name : QString} (hname : Naming.resolve name = name) :
    Assoc.find name (createBackup p d) = readListed p d name := by
  cases hread : readListed p d name with
  | none =>
    rw [Assoc.find_eq_none]
    intro hmem
    obtain ⟨f, hf, rfl⟩ := List.mem_map.mp hmem
    rw [(mem_createBackup.mp hf).2] at hread
    cases hread
  | some data =>
    refine Assoc.find_eq_some_of_forall
      (List.mem_map.mpr ⟨(name, data), mem_createBackup.mpr ⟨hname, hread⟩, rfl⟩) ?_
    rintro f hf rfl
    exact Option.some.inj ((mem_createBackup.mp hf).2.symm.trans hread)

theorem pathResumeData_createBackup (p' : Platform) :
    pathResumeData p' (createBackup p d) = p'.fromCString ((d.read pathResume).getD []) := by
  have hlisted : listed p (Naming.resolve pathResume) = true :=
    DataFolder.resolve_pathResume.symm ▸ listed_pathResume p
  rw [pathResumeData, find_createBackup DataFolder.resolve_pathResume, readListed, if_pos hlisted]

theorem read_extractAll (disk : CtData) (s : QString) :
    (extractAll (createBackup p d) disk).read s = (readListed p d s).or (disk.read s) := by
  have hresolve : Naming.resolve (Naming.resolve s) = Naming.resolve s := Naming.resolve_resolve s
  have hsame : readListed p d (Naming.resolve s) = readListed p d s := by
    rw [readListed, readListed, Disk.read, Disk.read, hresolve]
  rw [extractAll]
  cases hread : readListed p d s with
  | none =>
    rw [Option.none_or]
    refine Disk.read_foldl_write_of_ne disk fun f hf hs => ?_
    obtain ⟨hname, hdata⟩ := mem_createBackup.mp hf
    rw [← hname, ← hs, hsame, hread] at hdata
    cases hdata
  | some data =>
    rw [Option.some_or]
    refine Disk.read_foldl_write_of_mem disk ⟨(Naming.resolve s, data),
      mem_createBackup.mpr ⟨hresolve, hsame.trans hread⟩, hresolve.symm⟩ fun f hf hs => ?_
    obtain ⟨hname, hdata⟩ := mem_createBackup.mp hf
    rw [← hname, ← hs, hsame, hread] at hdata
    exact (Option.some.inj hdata).symm

theorem readListed_eq_iff : (∀ s, readListed p d s = d.read s) ↔ ∀ name ∈ d.names, listed p name = true := by
  constructor
  · intro h name hname
    obtain ⟨hresolve, hsome⟩ := (d.mem_names_iff name).mp hname
    have hread := h name
    rw [readListed] at hread
    split_ifs at hread with hlisted
    · rwa [hresolve] at hlisted
    · rw [← hread] at hsome
      cases hsome
  · intro h s
    rw [readListed]
    split_ifs with hlisted
    · rfl
    · cases hread : d.read s with
      | none => rfl
      | some data =>
        have hresolve : Naming.resolve (Naming.resolve s) = Naming.resolve s := Naming.resolve_resolve s
        have hsome : (d.read (Naming.resolve s)).isSome = true := by
          rw [Disk.read, hresolve, ← Disk.read, hread]
          rfl
        exact absurd (h _ ((d.mem_names_iff _).mpr ⟨hresolve, hsome⟩)) hlisted

omit [DataFolder] in
theorem newPathResumeData_nil (text : QString) : newPathResumeData [] text = text := by
  have hline : changeLine (chmagePathMap []) = id := by
    funext line
    unfold changeLine
    split
    · rfl
    · rfl
  rw [newPathResumeData, hline, List.map_id]
  exact List.intercalate_splitOn '\n'

def PathResumeSurvives (d : CtData) : Prop :=
  ∃ text, Char.ofNat 0 ∉ text ∧ d.read pathResume = some (toUtf8 text)

omit [DataFolder] in
theorem toUtf8_fromCString_iff (p : Platform) (data : QByteArray) :
    toUtf8 (p.fromCString data) = data ↔ ∃ text, Char.ofNat 0 ∉ text ∧ toUtf8 text = data := by
  constructor
  · intro h
    have hcut : p.fromCString data = (p.fromCString data).takeWhile fun c => decide (c ≠ Char.ofNat 0) := by
      conv_lhs => rw [← h, Platform.fromCString, cString_toUtf8, Platform.fromStdString_toUtf8]
    refine ⟨_, fun hc => ?_, h⟩
    rw [hcut] at hc
    simpa using List.mem_takeWhile_imp hc
  · rintro ⟨text, hzero, rfl⟩
    rw [p.fromCString_toUtf8 hzero]

/-- path.resume is written anew behind the files of the archive. -/
theorem read_extracted (p' : Platform) (s : QString) :
    (extracted p' [] (createBackup p d) .empty).read s =
      if Naming.resolve s = Naming.resolve pathResume then
        some (toUtf8 (p'.fromCString ((d.read pathResume).getD [])))
      else readListed p d s := by
  rw [extracted, Disk.read_write, newPathResumeData_nil, pathResumeData_createBackup, read_extractAll]
  exact if_congr Iff.rfl rfl Option.or_none

theorem read_extracted_iff (p' : Platform) :
    (∀ s, (extracted p' [] (createBackup p d) .empty).read s = d.read s) ↔
      PathResumeSurvives d ∧ ∀ name ∈ d.names, listed p name = true := by
  have hpath : ∀ s, Naming.resolve s = Naming.resolve pathResume →
      d.read s = d.read pathResume ∧ readListed p d s = d.read s := by
    intro s hs
    have hlisted : listed p (Naming.resolve s) = true := by
      rw [hs, DataFolder.resolve_pathResume]
      exact listed_pathResume p
    exact ⟨by rw [Disk.read, Disk.read, hs], by rw [readListed, if_pos hlisted]⟩
  rw [← readListed_eq_iff]
  constructor
  · intro h
    have hsurvives := (read_extracted p' pathResume).symm.trans (h pathResume)
    rw [if_pos rfl] at hsurvives
    refine ⟨?_, fun s => ?_⟩
    · cases hdata : d.read pathResume with
      | none =>
        rw [hdata] at hsurvives
        cases hsurvives
      | some data =>
        rw [hdata, Option.getD_some] at hsurvives
        obtain ⟨text, hzero, htext⟩ := (toUtf8_fromCString_iff p' data).mp (Option.some.inj hsurvives)
        exact ⟨text, hzero, hdata.trans (congrArg some htext.symm)⟩
    · have hs := (read_extracted p' s).symm.trans (h s)
      split_ifs at hs with hname
      · exact (hpath s hname).2
      · exact hs
  · rintro ⟨⟨text, hzero, htext⟩, hlisted⟩ s
    rw [read_extracted]
    split_ifs with hs
    · rw [(hpath s hs).1, htext, Option.getD_some, p'.fromCString_toUtf8 hzero]
    · exact hlisted s

theorem read_removeTorrent {w : World} (h : w.disk.read pathResume = none) (B : Sha1Hash)
    (delFiles : Bool) :
    (RemoveTorrent p w B delFiles).disk.read pathResume = none := by
  dsimp only [RemoveTorrent]
  rw [Disk.read_remove, Disk.read_remove, Disk.read_remove, h, ite_self, ite_self, ite_self]

variable [Libtorrent]

/-- A backup without a text in path.resume restores nothing; of any other the client starts,
on a new computer, from a folder in which every file is as it was exactly when path.resume
survives its codecs and the archive left out no file. -/
theorem applyBackup_createBackup (p p' : Platform) (d : CtData) {w : World} (hempty : w.disk = .empty) :
    (p'.fromCString ((d.read pathResume).getD []) = [] →
        ApplyBackup p' [] (createBackup p d) w = (w, .ok ())) ∧
      (p'.fromCString ((d.read pathResume).getD []) ≠ [] →
        ∃ disk, ApplyBackup p' [] (createBackup p d) w = initSession p' { w with disk := disk } ∧
          ((∀ s, disk.read s = d.read s) ↔
            PathResumeSurvives d ∧ ∀ name ∈ d.names, listed p name = true)) := by
  have htext := pathResumeData_createBackup (p := p) (d := d) p'
  constructor
  · intro hnone
    rw [ApplyBackup, htext, if_pos hnone]
  · intro hsome
    refine ⟨extracted p' [] (createBackup p d) w.disk, ?_, hempty ▸ read_extracted_iff p'⟩
    rw [ApplyBackup, htext, if_neg hsome, ← htext]
    rfl

/-! ### The backups of a client that has started -/

variable {w : World}

theorem read_addTorrent (h : w.disk.read pathResume = none) (c : AddCall) :
    (AddTorrent p w c).1.disk.read pathResume = none := by
  cases ho : AddTorrent p w c with
  | mk w' r =>
    have houtcome := addTorrent_outcome p w c
    rw [ho] at houtcome
    cases houtcome with
    | unreadable ht => exact h
    | badResume ht hp => exact h
    | rejected ht hp hs => exact h
    | noMetadata ht hp hs hv => exact h
    | added ht hp hs hv =>
      dsimp only
      rw [keepTorrentFile, Disk.read_remove, Disk.read_copy_of_ne _ (torrentFile_ne_pathResume _), h, ite_self]

theorem read_loadEntries {saved : List (QString × QString × QString)} (h : w.disk.read pathResume = none)
    (entries : List QString) : (loadEntries p saved w entries).1.disk.read pathResume = none := by
  induction entries generalizing w with
  | nil => exact h
  | cons entry entries ih =>
    have hadd := read_addTorrent (p := p) h (entryCall p saved w entry)
    rw [loadEntries]
    cases ho : AddTorrent p w (entryCall p saved w entry) with
    | mk w' r =>
      rw [ho] at hadd
      cases r with
      | error f => exact hadd
      | ok added => exact ih hadd

theorem read_initSession (hok : (initSession p w).2 = .ok ()) :
    (initSession p w).1.disk.read pathResume = none := by
  unfold initSession at hok ⊢
  cases hpaths : readPathResume w.disk with
  | error f =>
    rw [hpaths] at hok
    cases hok
  | ok r =>
    obtain ⟨saved, disk⟩ := r
    refine read_loadEntries ?_ _
    dsimp only
    unfold readPathResume at hpaths
    split at hpaths
    · next hnone =>
      cases hpaths
      exact hnone
    · obtain ⟨saved', -, hpair⟩ := bind_eq_ok hpaths
      cases hpair
      rw [Disk.read_remove, if_pos rfl]

theorem read_step (h : w.disk.read pathResume = none) (op : FileOp) :
    (step p w op).disk.read pathResume = none := by
  cases op with
  | add c => exact read_addTorrent h c
  | remove B delFiles => exact read_removeTorrent h B delFiles

/-- A client that has started makes backups from which nothing is restored, whatever torrents
are added and removed before. -/
theorem backup_after_initSession (hok : (initSession p w).2 = .ok ()) (ops : List FileOp) (p' : Platform)
    (rows : List (QString × QString)) (v : World) :
    ApplyBackup p' rows (createBackup p (Runs.final (step p) (initSession p w).1 ops).disk) v = (v, .ok ()) := by
  have hnone : (Runs.final (step p) (initSession p w).1 ops).disk.read pathResume = none :=
    Runs.final_of_step (P := fun w : World => w.disk.read pathResume = none) (fun _ op h => read_step h op)
      (read_initSession hok) ops
  have htext : pathResumeData p' (createBackup p (Runs.final (step p) (initSession p w).1 ops).disk) = [] := by
    rw [pathResumeData_createBackup, hnone, Option.getD_none]
    cases p' <;> rfl
  rw [ApplyBackup, if_pos htext]

end

section sample
local instance : DataFolder := lineFolder
local instance : Libtorrent := sampleLibtorrent

def sampleDisk : CtData := ⟨backupFiles, fun _ _ => rfl⟩

theorem applyBackup_createBackup_sample : ∃ disk,
    ApplyBackup .unix [] (createBackup .unix sampleDisk) emptyClient =
      initSession .unix { emptyClient with disk := disk } ∧ ∀ s, disk.read s = sampleDisk.read s := by
  have htext : Platform.unix.fromCString ((sampleDisk.read pathResume).getD []) ≠ [] := by decide +kernel
  have hempty : emptyClient.disk = .empty := rfl
  obtain ⟨disk, happly, hread⟩ := (applyBackup_createBackup .unix .unix sampleDisk hempty).2 htext
  have hlisted : sampleDisk.names.all (listed .unix) = true := by decide +kernel
  have hdata : sampleDisk.read pathResume = some (toUtf8 (torrentB.infoHash.hex ++ "|/фильмы|\n".toList)) := rfl
  exact ⟨disk, happly, hread.mpr ⟨⟨_, by decide +kernel, hdata⟩, List.all_eq_true.mp hlisted⟩⟩

def startedOn : World := { emptyClient with disk := ⟨[(pathResume, literal "x|/a|\n")], fun _ _ => rfl⟩ }

theorem backup_after_initSession_sample :
    ApplyBackup .windows [] (createBackup .unix (Runs.final (step .unix) (initSession .unix startedOn).1
      [.remove torrentB.infoHash true]).disk) emptyClient = (emptyClient, .ok ()) :=
  backup_after_initSession (by decide +kernel) _ _ _ _

end sample

end CreateBackupPage
end CuteTorrent
