import CuteTorrent.Library.Runs
import CuteTorrent.TorrentManager

/-! Which files of CT_DATA the torrents share: the files kept under a hash and
the older ones under a name. -/
namespace CuteTorrent
namespace TorrentManager
open Runs Naming

inductive FileOp where
  | add (c : AddCall)
  | remove (h : Sha1Hash) (delFiles : Bool)

theorem isTorrentFile_hashFile (p : Platform) (B : Sha1Hash) :
    isTorrentFile p (hashFile B .torrent) = true := by
  have hdigit : ∀ n < 16, hexDigit n ≠ '/' ∧ hexDigit n ≠ '\\' ∧ hexDigit n ≠ Char.ofNat 0 ∧
      hexDigit n ≠ '.' := by decide
  have hhex : ∀ c ∈ B.hex, c ≠ '/' ∧ c ≠ '\\' ∧ c ≠ Char.ofNat 0 ∧ c ≠ '.' := by
    intro c hc
    obtain ⟨n, hn, rfl⟩ := mem_toHex hc
    exact hdigit n hn
  have hsuffix : torrentSuffix.isSuffixOf ((hashFile B .torrent).map Char.toLower) = true := by
    rw [List.isSuffixOf_iff_suffix, hashFile, List.map_append]
    exact ⟨_, rfl⟩
  have hsep : p.separator ∉ hashFile B .torrent := by
    intro hc
    cases List.mem_append.mp hc with
    | inl hc =>
      cases p with
      | windows => exact (hhex _ hc).2.1 rfl
      | unix => exact (hhex _ hc).1 rfl
    | inr hc =>
      revert hc
      cases p <;> decide
  have hzero : Char.ofNat 0 ∉ hashFile B .torrent := by
    intro hc
    cases List.mem_append.mp hc with
    | inl hc => exact (hhex _ hc).2.2.1 rfl
    | inr hc =>
      revert hc
      decide
  have hhead : (hashFile B .torrent).head? ≠ some '.' := by
    intro hc
    have hne : B.hex ≠ [] := List.ne_nil_of_length_pos (by simp)
    rw [hashFile, List.head?_append_of_ne_nil _ hne] at hc
    exact (hhex _ (List.mem_of_head? hc)).2.2.2 rfl
  simp [isTorrentFile, hsuffix, hsep, hzero, hhead]

theorem nativePath_hashFile (h : Sha1Hash) :
    nativePath (toUtf8 (hashFile h .torrent)) = hashFile h .torrent := by
  apply nativePath_toUtf8
  have hfile := isTorrentFile_hashFile .unix h
  simp only [isTorrentFile, Bool.and_eq_true, Bool.not_eq_true', List.contains_eq_mem,
    decide_eq_false_iff_not] at hfile
  exact hfile.1.2

section
variable [DataFolder] (p : Platform)

theorem torrentFile_ne_pathResume (h : Sha1Hash) :
    Naming.resolve pathResume ≠ Naming.resolve (hashFile h .torrent) := by
  rw [DataFolder.resolve_hashFile, DataFolder.resolve_pathResume]
  intro he
  have hfile := isTorrentFile_hashFile .unix h
  rw [← he] at hfile
  exact absurd hfile (by decide)

theorem mem_entryList_hashFile (disk : CtData) (B : Sha1Hash) :
    hashFile B .torrent ∈ entryList p disk ↔ (disk.read (hashFile B .torrent)).isSome := by
  have hfile := isTorrentFile_hashFile p B
  rw [entryList, (DataFolder.entryOrder_perm _).mem_iff, List.mem_filter, Disk.mem_names_iff]
  simp [hfile, DataFolder.resolve_hashFile]

theorem read_keepTorrentFile (disk : CtData) (path : QString) (ti : TorrentInfo) {B : Sha1Hash}
    (h : ti.infoHash ≠ B) (k : HashFile) :
    (keepTorrentFile p disk path ti).read (hashFile B k) =
      if resolve (namedFile p ti.name) = hashFile B k then none else disk.read (hashFile B k) := by
  have hcopy : resolve (hashFile B k) ≠ resolve (hashFile ti.infoHash .torrent) := by
    rw [DataFolder.resolve_hashFile, DataFolder.resolve_hashFile]
    intro he
    exact h (hashFile_injective he).1.symm
  rw [keepTorrentFile, Disk.read_remove, Disk.read_copy_of_ne _ hcopy, DataFolder.resolve_hashFile,
    eq_comm]
  simp only [eq_comm]

end

section
variable [DataFolder] [Libtorrent] (p : Platform)

def step (w : World) : FileOp → World
  | .add c => (AddTorrent p w c).1
  | .remove h delFiles => RemoveTorrent p w h delFiles

def subject (w : World) : FileOp → Option Sha1Hash
  | .add c => (torrentInfo w.disk (nativePath (toUtf8 c.path))).map TorrentInfo.infoHash
  | .remove h _ => some (((w.session.find h).map SessionTorrent.infoHash).getD .zero)

/-- The parameters under which the session takes the torrent, metadata and all. -/
def acceptedParams (w : World) (c : AddCall) : Option AddTorrentParams := do
  let t ← torrentInfo w.disk (nativePath (toUtf8 c.path))
  let (params, _) ← (prepare p w c t).toOption
  let s ← w.session.addTorrent params
  if s.info.isValid then some params else none

def namedFileOf (w : World) : FileOp → Option QString
  | .add c => (acceptedParams p w c).map fun params => namedFile p params.ti.name
  | .remove h _ => some (namedFile p (((w.session.find h).map SessionTorrent.name).getD []))

def FilesKept (w w' : World) (B : Sha1Hash) : Prop :=
  ∀ k, w'.disk.read (hashFile B k) = w.disk.read (hashFile B k)

def NamedApart (w : World) (op : FileOp) : Prop :=
  ∀ B k, subject w op ≠ some B → (namedFileOf p w op).map resolve = some (hashFile B k) →
    w.disk.read (hashFile B k) = none

theorem acceptedParams_outcome {w : World} {c : AddCall} {r : World × Except Fault Bool}
    (h : AddOutcome p w c r) :
    (acceptedParams p w c = none ∧ r.1.disk = w.disk) ∨
      ∃ params, subject w (.add c) = some params.ti.infoHash ∧ acceptedParams p w c = some params ∧
        r.1.disk = keepTorrentFile p w.disk c.path params.ti := by
  cases h with
  | unreadable ht => exact Or.inl ⟨by simp [acceptedParams, ht], rfl⟩
  | badResume ht hp => exact Or.inl ⟨by simp [acceptedParams, ht, hp, Except.toOption], rfl⟩
  | rejected ht hp hs => exact Or.inl ⟨by simp [acceptedParams, ht, hp, hs, Except.toOption], rfl⟩
  | noMetadata ht hp hs hv =>
    exact Or.inl ⟨by simp [acceptedParams, ht, hp, hs, hv, Except.toOption], rfl⟩
  | @added t params group s ht hp hs hv =>
    obtain ⟨fields, -, hparams⟩ := prepare_ok hp
    refine Or.inr ⟨params, ?_, ?_, rfl⟩
    · simp [subject, ht, hparams, addParams]
    · simp [acceptedParams, ht, hp, hs, hv, Except.toOption]

theorem read_step (w : World) (op : FileOp) {B : Sha1Hash} (hB : subject w op ≠ some B)
    (k : HashFile) :
    (step p w op).disk.read (hashFile B k) =
      if (namedFileOf p w op).map resolve = some (hashFile B k) then none
      else w.disk.read (hashFile B k) := by
  cases op with
  | add c =>
    rcases acceptedParams_outcome p (addTorrent_outcome p w c) with ⟨hp, hd⟩ | ⟨params, hs, hp, hd⟩
    · simp [step, namedFileOf, hp, hd]
    · have hne : params.ti.infoHash ≠ B := fun he => hB (he ▸ hs)
      rw [step, hd, read_keepTorrentFile p _ _ _ hne]
      simp [namedFileOf, hp]
  | remove h delFiles =>
    have hne : ∀ i, resolve (hashFile B k) ≠
        resolve (hashFile (((w.session.find h).map SessionTorrent.infoHash).getD .zero) i) := by
      intro i he
      rw [DataFolder.resolve_hashFile, DataFolder.resolve_hashFile] at he
      exact hB (congrArg some (hashFile_injective he).1.symm)
    rw [step, RemoveTorrent, Disk.read_remove_of_ne _ (hne _), Disk.read_remove,
      Disk.read_remove_of_ne _ (hne _), DataFolder.resolve_hashFile]
    simp only [namedFileOf, Option.map_some, Option.some.injEq, eq_comm]

/-- One operation keeps all files of the other torrents exactly when the file
under its torrent's name is none of theirs. -/
theorem step_keeps_iff (w : World) (op : FileOp) :
    (∀ B, subject w op ≠ some B → FilesKept w (step p w op) B) ↔ NamedApart p w op := by
  constructor
  · intro h B k hB hname
    have hkept := h B hB k
    rw [read_step p w op hB, if_pos hname] at hkept
    exact hkept.symm
  · intro h B hB k
    rw [read_step p w op hB]
    split_ifs with hname
    · exact (h B k hB hname).symm
    · rfl

theorem filesKept_run (w : World) (ops : List FileOp) (h : Along (step p) (NamedApart p) w ops)
    {B : Sha1Hash} (hB : Along (step p) (fun s op => subject s op ≠ some B) w ops) :
    FilesKept w (final (step p) w ops) B := by
  induction ops generalizing w with
  | nil => exact fun _ => rfl
  | cons op ops ih =>
    intro k
    have hstep := (step_keeps_iff p w op).mpr h.1 B hB.1 k
    exact (ih (step p w op) h.2 hB.2 k).trans hstep

/-- Adding and removing torrents leaves the files of every other torrent alone,
so that the next start finds them again, exactly when no torrent is named like a
file of another. -/
theorem other_files_kept_iff (w : World) (ops : List FileOp) :
    (Along (step p) (fun s op => ∀ B, subject s op ≠ some B → FilesKept s (step p s op) B) w ops ↔
      Along (step p) (NamedApart p) w ops) ∧
    (Along (step p) (NamedApart p) w ops → ∀ B,
      Along (step p) (fun s op => subject s op ≠ some B) w ops →
        FilesKept w (final (step p) w ops) B ∧
        (hashFile B .torrent ∈ entryList p (final (step p) w ops).disk ↔
          hashFile B .torrent ∈ entryList p w.disk)) := by
  constructor
  · apply along_iff_along (I := fun _ => True) (fun s op _ => step_keeps_iff p s op)
    · exact fun _ _ _ _ => trivial
    · trivial
  · intro h B hB
    have hkept := filesKept_run p w ops h hB
    refine ⟨hkept, ?_⟩
    rw [mem_entryList_hashFile, mem_entryList_hashFile, hkept .torrent]

end

/-- The torrent in `a.torrent` is named like the hash of the torrent that is
there already. -/
theorem add_takes_file_of_other :
    ¬ ∀ (_ : DataFolder) (_ : Libtorrent) (p : Platform) (w : World) (op : FileOp) (B : Sha1Hash),
      subject w op ≠ some B → FilesKept w (step p w op) B := by
  intro h
  let start := plainWorld [("a.torrent".toList, singleFile torrentB.infoHash.hex),
    (hashFile torrentB.infoHash .torrent, singleFile "b".toList)]
  have hkept := h plainFolder sampleLibtorrent .unix start
    (.add ⟨"a.torrent".toList, [], [], [], [], false⟩) torrentB.infoHash (by decide +kernel) .torrent
  revert hkept
  decide +kernel

end TorrentManager
end CuteTorrent
