import CuteTorrent.Restart

/-! A backup is restored, with some of its save paths moved: the text of
path.resume is rewritten, then `initSession` reads it. -/
namespace CuteTorrent
open TorrentManager

/-! ### Lines of a text -/

/-- The lines that `readLine` gives until the end; a last one without a character
is none. -/
def textLines (text : QString) : List QString :=
  let lines := text.splitOn '\n'
  if lines.getLast? = some [] then lines.dropLast else lines

def byteOrderMark : Char := Char.ofNat 0xFEFF

/-- `QTextStream` with the codec for UTF-8 on what it has written. -/
class TextStream [DataFolder] : Prop where
  readLines_toUtf8 (text : QString) (hreturn : '\r' ∉ text) (hmark : text.head? ≠ some byteOrderMark) :
    DataFolder.readLines (toUtf8 text) = textLines text

theorem head_intercalate_map {sep : Char} {f : QString → QString} (hf : ∀ t, (f t).head? = t.head?)
    (parts : List QString) :
    ([sep].intercalate (parts.map f)).head? = ([sep].intercalate parts).head? := by
  cases parts with
  | nil => rfl
  | cons t ts =>
    cases ts with
    | nil => simp [hf]
    | cons u ts =>
      rw [List.map_cons, List.map_cons, List.intercalate_cons_cons, List.intercalate_cons_cons]
      simp only [List.append_assoc, List.head?_append, hf]
      rfl

theorem textLines_map {f : QString → QString} {text : QString} (hempty : ∀ t, f t = [] ↔ t = [])
    (hbreak : ∀ line ∈ text.splitOn '\n', '\n' ∉ f line) :
    textLines (['\n'].intercalate ((text.splitOn '\n').map f)) = (textLines text).map f := by
  have hsplit : (['\n'].intercalate ((text.splitOn '\n').map f)).splitOn '\n' =
      (text.splitOn '\n').map f := by
    apply List.splitOn_intercalate
    · intro line hline
      obtain ⟨t, ht, rfl⟩ := List.mem_map.mp hline
      exact hbreak t ht
    · simp [List.splitOn_ne_nil]
  have hlast : ((text.splitOn '\n').map f).getLast? = some [] ↔
      (text.splitOn '\n').getLast? = some [] := by
    rw [List.getLast?_map, Option.map_eq_some_iff]
    constructor
    · rintro ⟨t, ht, hft⟩
      rw [ht, (hempty t).mp hft]
    · intro h
      exact ⟨[], h, (hempty []).mpr rfl⟩
  simp only [textLines, hsplit, hlast]
  split_ifs
  · rw [List.map_dropLast]
  · rfl

namespace ApplyBackupPage

/-! ### The page -/

/-- A row of the table: a path and the new one, empty when there is none. -/
def chmagePathMap (rows : List (QString × QString)) : List (QString × QString) :=
  rows.foldl (fun m row => if row.2 = [] then m else Assoc.insert row.1 row.2 m) []

def changeLine (chmagePathMap : List (QString × QString)) (line : QString) : QString :=
  match line.splitOn '|' with
  | infoHash :: path :: group :: _ =>
    match Assoc.find path chmagePathMap with
    | some newPath => infoHash ++ '|' :: (newPath ++ '|' :: group)
    | none => line
  | _ => line

def newPathResumeData (rows : List (QString × QString)) (pathResumeData : QString) : QString :=
  ['\n'].intercalate ((pathResumeData.splitOn '\n').map (changeLine (chmagePathMap rows)))

def pathResumeData (p : Platform) (files : List (QString × QByteArray)) : QString :=
  p.fromCString ((Assoc.find pathResume files).getD [])

section
variable [DataFolder]

/-- `extractAll` replaces the files that are there already. -/
def extractAll (files : List (QString × QByteArray)) (disk : CtData) : CtData :=
  files.foldl (fun disk f => disk.write f.1 f.2) disk

variable [Libtorrent]

def ApplyBackup (p : Platform) (rows : List (QString × QString))
    (files : List (QString × QByteArray)) (w : World) : World × Except Fault Unit :=
  if pathResumeData p files = [] then (w, .ok ())
  else
    let disk := (extractAll files w.disk).write pathResume
      (toUtf8 (newPathResumeData rows (pathResumeData p files)))
    initSession p { w with disk := disk }

end

/-! ### The rewritten text -/

def FitsLine (newPath : QString) : Prop := '|' ∉ newPath ∧ '\n' ∉ newPath ∧ '\r' ∉ newPath

theorem chmagePathMap_eq_filter (rows : List (QString × QString)) : chmagePathMap rows =
    (rows.filter fun row => decide (row.2 ≠ [])).foldl (fun m row => Assoc.insert row.1 row.2 m) [] := by
  rw [List.foldl_filter, chmagePathMap]
  simp only [ne_eq, decide_eq_true_eq, ite_not]

theorem mem_rows_of_find {rows : List (QString × QString)} {path newPath : QString}
    (h : Assoc.find path (chmagePathMap rows) = some newPath) : (path, newPath) ∈ rows := by
  rw [chmagePathMap_eq_filter, Assoc.find_foldl_insert_nil] at h
  exact List.mem_of_mem_filter (List.mem_reverse.mp (Assoc.mem_of_find h))

def lineParts (line : QString) : Option (QString × QString × QString) :=
  match line.splitOn '|' with
  | [infoHash, path, group] => some (infoHash, path, group)
  | _ => none

theorem eq_of_splitOn {line infoHash path group : QString} {rest : List QString}
    (h : line.splitOn '|' = infoHash :: path :: group :: rest) :
    line = infoHash ++ '|' :: (path ++ '|' :: ['|'].intercalate (group :: rest)) := by
  have hline : ['|'].intercalate (line.splitOn '|') = line := List.intercalate_splitOn '|'
  rw [← hline, h, List.intercalate_cons_cons, List.intercalate_cons_cons]
  simp

section
variable {rows : List (QString × QString)}

theorem head_changeLine (line : QString) :
    (changeLine (chmagePathMap rows) line).head? = line.head? := by
  unfold changeLine
  split
  · next infoHash path group rest hparts =>
    split
    · rw [eq_of_splitOn hparts, List.head?_append, List.head?_append]
      rfl
    · rfl
  · rfl

theorem changeLine_eq_nil_iff (line : QString) :
    changeLine (chmagePathMap rows) line = [] ↔ line = [] := by
  rw [← List.head?_eq_none_iff, head_changeLine, List.head?_eq_none_iff]

theorem mem_changeLine {line : QString} {c : Char}
    (h : c ∈ changeLine (chmagePathMap rows) line) :
    c ∈ line ∨ c = '|' ∨ ∃ row ∈ rows, c ∈ row.2 := by
  unfold changeLine at h
  split at h
  · next infoHash path group rest hparts =>
    have hpart : ∀ t ∈ infoHash :: path :: group :: rest, c ∈ t → c ∈ line :=
      fun t ht hc => mem_of_mem_part hc (hparts ▸ ht)
    split at h
    · next newPath hnew =>
      rw [List.mem_append, List.mem_cons, List.mem_append, List.mem_cons] at h
      rcases h with h | h | h | h | h
      · exact .inl (hpart infoHash (by simp) h)
      · exact .inr (.inl h)
      · exact .inr (.inr ⟨_, mem_rows_of_find hnew, h⟩)
      · exact .inr (.inl h)
      · exact .inl (hpart group (by simp) h)
    · exact .inl h
  · exact .inl h

theorem textLines_newPathResumeData (hbreak : ∀ row ∈ rows, '\n' ∉ row.2) (text : QString) :
    textLines (newPathResumeData rows text) =
      (textLines text).map (changeLine (chmagePathMap rows)) := by
  apply textLines_map changeLine_eq_nil_iff
  intro line hline hc
  rcases mem_changeLine hc with hc | hc | ⟨row, hrow, hc⟩
  · exact not_mem_of_mem_splitOn hline hc
  · exact absurd hc (by decide)
  · exact hbreak row hrow hc

variable (hrows : ∀ row ∈ rows, FitsLine row.2)
include hrows

theorem lineParts_changeLine {line infoHash path group : QString}
    (h : lineParts line = some (infoHash, path, group)) :
    lineParts (changeLine (chmagePathMap rows) line) =
      some (infoHash, (Assoc.find path (chmagePathMap rows)).getD path, group) := by
  have hparts : line.splitOn '|' = [infoHash, path, group] := by
    unfold lineParts at h
    split at h
    · next hparts =>
      cases h
      exact hparts
    · cases h
  unfold changeLine
  rw [hparts]
  dsimp only
  cases hnew : Assoc.find path (chmagePathMap rows) with
  | none => exact h
  | some newPath =>
    have hbar : ∀ t ∈ [infoHash, newPath, group], '|' ∉ t := by
      have hold : ∀ t ∈ line.splitOn '|', '|' ∉ t := fun t ht => not_mem_of_mem_splitOn ht
      have hfits := (hrows _ (mem_rows_of_find hnew)).1
      simp only [hparts, List.forall_mem_cons, List.not_mem_nil, false_imp_iff, implies_true,
        and_true] at hold ⊢
      exact ⟨hold.1, hfits, hold.2.2⟩
    have hline : infoHash ++ '|' :: (newPath ++ '|' :: group) =
        ['|'].intercalate [infoHash, newPath, group] := by
      simp [List.intercalate_cons_cons]
    dsimp only
    rw [hline, lineParts, List.splitOn_intercalate '|' hbar (by simp)]
    rfl

theorem readLines_newPathResumeData [DataFolder] [TextStream] {text : QString} (hreturn : '\r' ∉ text)
    (hmark : text.head? ≠ some byteOrderMark) :
    DataFolder.readLines (toUtf8 (newPathResumeData rows text)) =
      (textLines text).map (changeLine (chmagePathMap rows)) := by
  rw [← textLines_newPathResumeData fun row hrow => (hrows row hrow).2.1]
  apply TextStream.readLines_toUtf8
  · intro hc
    obtain hc | ⟨line, hline, hc⟩ := mem_intercalate hc
    · exact absurd hc (by decide)
    · obtain ⟨old, hold, rfl⟩ := List.mem_map.mp hline
      rcases mem_changeLine hc with hc | hc | ⟨row, hrow, hc⟩
      · exact hreturn (mem_of_mem_part hc hold)
      · exact absurd hc (by decide)
      · exact (hrows row hrow).2.2 hc
  · have htext : ['\n'].intercalate (text.splitOn '\n') = text := List.intercalate_splitOn '\n'
    rw [newPathResumeData, head_intercalate_map head_changeLine, htext]
    exact hmark

end

def pathLines (text : QString) : List (QString × QString × QString) :=
  (textLines text).filterMap lineParts

/-- The last line of a hash counts. -/
def pathMap (lines : List (QString × QString × QString)) : List (QString × QString × QString) :=
  lines.foldl (fun m line => Assoc.insert line.1 line.2 m) []

def movePath (rows : List (QString × QString)) (line : QString × QString × QString) :
    QString × QString × QString :=
  (line.1, (Assoc.find line.2.1 (chmagePathMap rows)).getD line.2.1, line.2.2)

theorem savedPath_of_lineParts {line : QString} {parts : QString × QString × QString}
    (h : lineParts line = some parts) : savedPath line = .ok (some parts) := by
  unfold lineParts at h
  split at h
  · next hparts =>
    cases h
    rw [savedPath, hparts]
  · cases h

/-- What `initSession` reads from the rewritten text: the lines of the backup,
with the paths moved. -/
theorem savedPaths_changed {rows : List (QString × QString)} (hrows : ∀ row ∈ rows, FitsLine row.2)
    {text : QString} (htext : ∀ line ∈ textLines text, (lineParts line).isSome) :
    savedPaths ((textLines text).map (changeLine (chmagePathMap rows))) [] =
      .ok (pathMap ((pathLines text).map (movePath rows))) := by
  have hrun : ∀ (lines : List QString) (m : List (QString × QString × QString)),
      (∀ line ∈ lines, (lineParts line).isSome) →
      savedPaths (lines.map (changeLine (chmagePathMap rows))) m =
        .ok (((lines.filterMap lineParts).map (movePath rows)).foldl
          (fun m line => Assoc.insert line.1 line.2 m) m) := by
    intro lines
    induction lines with
    | nil => exact fun _ _ => rfl
    | cons line lines ih =>
      intro m h
      obtain ⟨parts, hparts⟩ := Option.isSome_iff_exists.mp (h line (by simp))
      have hchanged : lineParts (changeLine (chmagePathMap rows) line) = some (movePath rows parts) :=
        lineParts_changeLine hrows hparts
      have hrest := ih (Assoc.insert (movePath rows parts).1 (movePath rows parts).2 m)
        fun t ht => h t (List.mem_cons_of_mem _ ht)
      rw [List.map_cons, savedPaths, savedPath_of_lineParts hchanged, List.filterMap_cons_some hparts,
        List.map_cons, List.foldl_cons, ← hrest]
      rfl
  exact hrun _ _ htext

/-! ### The save path of a torrent that is added -/

def resumeSavePath (p : Platform) (buf : QByteArray) (given : QString) : QString :=
  match Bencode.bdecode buf with
  | .ok (.dict d) =>
    match Assoc.find keySavePath d with
    | some (.string s) => p.fromStdString s
    | some _ => []
    | none => given
  | _ => given

theorem savePath_of_resumeFields {p : Platform} {buf : QByteArray} {given fields : AddFields}
    (h : resumeFields p buf given = .ok fields) :
    fields.savePath = resumeSavePath p buf given.savePath := by
  obtain ⟨e, he, h⟩ := bind_eq_ok h
  obtain ⟨name, -, h⟩ := bind_eq_ok h
  obtain ⟨group, -, h⟩ := bind_eq_ok h
  obtain ⟨savePath, hpath, h⟩ := bind_eq_ok h
  cases h
  obtain ⟨i, hi, hpath⟩ := bind_eq_ok hpath
  obtain ⟨d, hd, hi⟩ := bind_eq_ok hi
  obtain rfl := Except.ok.inj hi
  rw [resumeSavePath, he]
  cases e with
  | undefined =>
    cases hd
    cases hpath
    rfl
  | dict d' =>
    obtain rfl := Except.ok.inj hd
    dsimp only
    cases hfind : Assoc.find keySavePath d' with
    | none =>
      rw [hfind] at hpath
      cases hpath
      rfl
    | some i =>
      rw [hfind] at hpath
      cases i <;> cases hpath <;> rfl
  | int n => cases hd
  | string s => cases hd
  | list es => cases hd

section
variable [DataFolder] (p : Platform)

def addedSavePath (w : World) (c : AddCall) (t : TorrentInfo) : QString :=
  match loadFile w.disk (hashFile t.infoHash .resume) with
  | none => c.savePath
  | some buf => resumeSavePath p buf c.savePath

theorem savePath_of_prepare {w : World} {c : AddCall} {t : TorrentInfo} {params : AddTorrentParams}
    {group : QString} (h : prepare p w c t = .ok (params, group)) :
    params.savePath = cString (toUtf8 (addedSavePath p w c t)) := by
  unfold prepare at h
  unfold addedSavePath
  cases hload : loadFile w.disk (hashFile t.infoHash .resume) with
  | none =>
    rw [hload] at h
    cases h
    rfl
  | some buf =>
    rw [hload] at h
    obtain ⟨fields, hfields, h⟩ := bind_eq_ok h
    cases h
    have hpath := savePath_of_resumeFields hfields
    change cString (toUtf8 fields.savePath) = _
    rw [hpath]
    rfl

end

/-! ### The loop -/

section
variable [DataFolder] [Libtorrent] (p : Platform) (K : Sha1Hash → QByteArray → Prop)

theorem session_addTorrent {w : World} {c : AddCall} (hs : Sound w c) :
    (AddTorrent p w c).1.session = w.session ∨
      ∃ t s, torrentInfo w.disk (nativePath (toUtf8 c.path)) = some t ∧
        (AddTorrent p w c).1.session = w.session ++ [s] ∧ ¬ w.session.Has s.infoHash ∧
        s.params.savePath = cString (toUtf8 (addedSavePath p w c t)) := by
  obtain ⟨b, hb⟩ := (addTorrent_ok_iff p w c).mpr hs
  have hout := addTorrent_outcome p w c
  generalize AddTorrent p w c = r at hb hout
  cases hout with
  | unreadable ht => exact .inl rfl
  | badResume ht hp => exact .inl rfl
  | rejected ht hp hnone => exact .inl rfl
  | noMetadata ht hp hsome hv => cases hb
  | @added t params group s ht hp hsome hv =>
    obtain ⟨-, hnew, hs⟩ := addTorrent_eq_some hsome
    have hpath := savePath_of_prepare p hp
    subst hs
    exact .inr ⟨t, _, ht, rfl, hnew, hpath⟩

/-- The torrents of `K` that the session has are there with their save path. -/
def Placed (session : Session) : Prop :=
  ∀ h path, K h path → session.Has h → ∃ s, session.find h = some s ∧ s.params.savePath = path

def Places (w : World) (c : AddCall) : Prop :=
  ∀ t, torrentInfo w.disk (nativePath (toUtf8 c.path)) = some t →
    ∀ h path, K h path → ¬ w.session.Has h → Offers w.disk c.path h →
      cString (toUtf8 (addedSavePath p w c t)) = path

theorem placed_addTorrent_iff {w : World} {c : AddCall} (hs : Sound w c) :
    Placed K (AddTorrent p w c).1.session ↔ Placed K w.session ∧ Places p K w c := by
  have hhas := has_addTorrent p hs
  obtain hsame | ⟨t, s, ht, hadded, hnew, hpath⟩ := session_addTorrent p hs
  · rw [hsame] at hhas ⊢
    refine ⟨fun h => ⟨h, ?_⟩, fun h => h.1⟩
    intro t ht k path hk hnot ho
    exact absurd ((hhas k).mpr (.inr ho)) hnot
  · rw [hadded] at hhas ⊢
    constructor
    · intro h
      constructor
      · intro k path hk hh
        rw [← find_append_of_has hh s]
        exact h k path hk ((has_append _ _ _).mpr (.inl hh))
      · intro t' ht' k path hk hnot ho
        obtain rfl := Option.some.inj (ht.symm.trans ht')
        have hafter := (hhas k).mpr (.inr ho)
        obtain hbefore | rfl := (has_append _ _ _).mp hafter
        · exact absurd hbefore hnot
        · obtain ⟨s', hs', hpath'⟩ := h _ path hk hafter
          obtain rfl := Option.some.inj ((find_append_self hnew).symm.trans hs')
          exact hpath.symm.trans hpath'
    · intro ⟨hplaced, hplaces⟩ k path hk hh
      by_cases hbefore : w.session.Has k
      · rw [find_append_of_has hbefore s]
        exact hplaced k path hk hbefore
      · have ho := ((hhas k).mp hh).resolve_left hbefore
        obtain rfl := ((has_append _ _ _).mp hh).resolve_left hbefore
        exact ⟨s, find_append_self hnew, hpath.trans (hplaces t ht _ path hk hbefore ho)⟩

variable (saved : List (QString × QString × QString))

def PlacesAlong : World → List QString → Prop
  | _, [] => True
  | w, entry :: entries =>
    Places p K w (entryCall p saved w entry) ∧
      PlacesAlong (AddTorrent p w (entryCall p saved w entry)).1 entries

theorem placed_loadEntries_iff {w : World} {entries : List QString}
    (hok : (loadEntries p saved w entries).2 = .ok ()) :
    Placed K (loadEntries p saved w entries).1.session ↔
      Placed K w.session ∧ PlacesAlong p K saved w entries := by
  induction entries generalizing w with
  | nil => exact ⟨fun h => ⟨h, trivial⟩, fun h => h.1⟩
  | cons entry entries ih =>
    have hs := sound_of_loadEntries_ok p saved hok
    rw [loadEntries_cons_ok p saved hs] at hok ⊢
    rw [ih hok, placed_addTorrent_iff p K hs, and_assoc]
    rfl

end

/-! ### A restored backup -/

section
variable (p : Platform) (rows : List (QString × QString)) (files : List (QString × QByteArray))

/-- The path in the torrent's line of path.resume, or the new path entered for it. -/
def Wanted (h : Sha1Hash) (path : QByteArray) : Prop :=
  ∃ old group,
    Assoc.find h.hex (pathMap (pathLines (fromUtf8 ((Assoc.find pathResume files).getD [])))) =
      some (old, group) ∧
    path = cString (toUtf8 ((Assoc.find old (chmagePathMap rows)).getD old))

def movedPaths : List (QString × QString × QString) :=
  pathMap ((pathLines (pathResumeData p files)).map (movePath rows))

variable [DataFolder]

def extracted (disk : CtData) : CtData :=
  (extractAll files disk).write pathResume (toUtf8 (newPathResumeData rows (pathResumeData p files)))

variable [Libtorrent]

/-- A backup of lines of three parts, with the .torrent file of every torrent in
them, and new paths that fit into a line. -/
structure Restorable (w : World) : Prop where
  text_ne : pathResumeData p files ≠ []
  parts : ∀ line ∈ textLines (pathResumeData p files), (lineParts line).isSome
  no_return : '\r' ∉ pathResumeData p files
  no_mark : (pathResumeData p files).head? ≠ some byteOrderMark
  fits : ∀ row ∈ rows, FitsLine row.2
  torrentFile : ∀ h path, Wanted rows files h path → ∃ t,
    torrentInfo (extractAll files w.disk) (hashFile h .torrent) = some t ∧ t.isValid = true ∧
      t.files ≠ [] ∧ t.infoHash = h

def Moves (w : World) : Prop :=
  (ApplyBackup p rows files w).2 = .ok () ∧ ∀ h path, Wanted rows files h path →
    ∃ s, (ApplyBackup p rows files w).1.session.find h = some s ∧ s.params.savePath = path

structure PathsAgree (w : World) : Prop where
  running : Placed (Wanted rows files) w.session
  loads : LoadsAlong p (movedPaths p rows files) (fun h => ∃ path, Wanted rows files h path)
    { w with disk := (extracted p rows files w.disk).remove pathResume }
    (entryList p (extracted p rows files w.disk))
  places : PlacesAlong p (Wanted rows files) (movedPaths p rows files)
    { w with disk := (extracted p rows files w.disk).remove pathResume }
    (entryList p (extracted p rows files w.disk))

variable {p rows files} {w : World}

theorem applyBackup_eq [TextStream] (h : Restorable p rows files w) :
    readPathResume (extracted p rows files w.disk) =
        .ok (movedPaths p rows files, (extracted p rows files w.disk).remove pathResume) ∧
      ApplyBackup p rows files w = loadEntries p (movedPaths p rows files)
        { w with disk := (extracted p rows files w.disk).remove pathResume }
        (entryList p (extracted p rows files w.disk)) := by
  have hread : (extracted p rows files w.disk).read pathResume =
      some (toUtf8 (newPathResumeData rows (pathResumeData p files))) := by
    rw [extracted, Disk.read_write, if_pos rfl]
  have hpaths : readPathResume (extracted p rows files w.disk) =
      .ok (movedPaths p rows files, (extracted p rows files w.disk).remove pathResume) := by
    rw [readPathResume, hread]
    dsimp only
    rw [readLines_newPathResumeData h.fits h.no_return h.no_mark, savedPaths_changed h.fits h.parts]
    rfl
  refine ⟨hpaths, ?_⟩
  rw [ApplyBackup, if_neg h.text_ne]
  change initSession p { w with disk := extracted p rows files w.disk } = _
  rw [initSession]
  dsimp only
  rw [hpaths]

theorem kept_extracted [TextStream] (h : Restorable p rows files w) :
    Kept (fun h => ∃ path, Wanted rows files h path)
      { w with disk := (extracted p rows files w.disk).remove pathResume }
      (entryList p (extracted p rows files w.disk)) := by
  have hkept := kept_start p (w := { w with disk := extracted p rows files w.disk })
    (applyBackup_eq h).1
  intro k ⟨path, hk⟩
  obtain ⟨t, ht, hv, hfiles, hhash⟩ := h.torrentFile k path hk
  have hread : (extracted p rows files w.disk).read (hashFile k .torrent) =
      (extractAll files w.disk).read (hashFile k .torrent) := by
    rw [extracted, Disk.read_write, if_neg (torrentFile_ne_pathResume k).symm]
  have hinfo : torrentInfo (extracted p rows files w.disk) (hashFile k .torrent) = some t := by
    rw [← ht]
    exact torrentInfo_congr hread
  have hentry : hashFile k .torrent ∈ entryList p (extracted p rows files w.disk) := by
    rw [entryList, (DataFolder.entryOrder_perm _).mem_iff, List.mem_filter, Disk.mem_names_iff]
    refine ⟨⟨DataFolder.resolve_hashFile k .torrent, ?_⟩, isTorrentFile_hashFile p k⟩
    rw [Option.isSome_iff_ne_none]
    intro hnone
    rw [torrentInfo, hnone] at hinfo
    cases hinfo
  refine hkept k ⟨hashFile k .torrent, hentry, t, ?_, hv, hfiles, hhash⟩
  rw [nativePath_hashFile]
  exact hinfo

/-- The save paths of a backup are as wanted exactly when its torrents are loaded
and each finds its path wanted in the resume data, or has none there that is
read. -/
theorem moves_iff [TextStream] (h : Restorable p rows files w) :
    Moves p rows files w ↔ PathsAgree p rows files w := by
  have hpath : ∀ entry ∈ entryList p (extracted p rows files w.disk),
      nativePath (toUtf8 entry) = entry := fun entry he => nativePath_entry p he
  have hload := loadEntries_complete_iff p (movedPaths p rows files) _ hpath (kept_extracted h)
  have hfind : ∀ session : Session, (∀ k path, Wanted rows files k path →
      ∃ s, session.find k = some s ∧ s.params.savePath = path) ↔
        (∀ k, (∃ path, Wanted rows files k path) → session.Has k) ∧
          Placed (Wanted rows files) session := by
    intro session
    constructor
    · intro hall
      refine ⟨fun k ⟨path, hk⟩ => ?_, fun k path hk _ => hall k path hk⟩
      obtain ⟨s, hs, -⟩ := hall k path hk
      have hfound : List.find? (fun s : SessionTorrent => decide (s.infoHash = k)) session = some s := hs
      exact ⟨s, List.mem_of_find?_eq_some hfound, by simpa using List.find?_some hfound⟩
    · intro ⟨hhas, hplaced⟩ k path hk
      exact hplaced k path hk (hhas k ⟨path, hk⟩)
  rw [Moves, (applyBackup_eq h).2, hfind, ← and_assoc, hload]
  constructor
  · intro ⟨hloads, hplaced⟩
    obtain ⟨hrunning, hplaces⟩ := (placed_loadEntries_iff p _ _ (hload.mpr hloads).1).mp hplaced
    exact ⟨hrunning, hloads, hplaces⟩
  · intro hagree
    exact ⟨hagree.loads, (placed_loadEntries_iff p _ _ (hload.mpr hagree.loads).1).mpr
      ⟨hagree.running, hagree.places⟩⟩

end

/-! ### One torrent, from `/фильмы` to `/b` -/

@[reducible] def lineFolder : DataFolder :=
  { TorrentManager.plainFolder with readLines := fun buf => textLines (fromUtf8 buf) }

theorem lineFolder_textStream : @TextStream lineFolder :=
  @TextStream.mk lineFolder fun text _ _ => congrArg textLines (fromUtf8_toUtf8 text)

def oldPath : QString := "/фильмы".toList

def backupFiles : List (QString × QByteArray) :=
  [(hashFile torrentB.infoHash .torrent, singleFile "b".toList),
    (hashFile torrentB.infoHash .resume,
      Bencode.bencode (.dict [(keySavePath, .string (toUtf8 oldPath))])),
    (pathResume, toUtf8 (torrentB.infoHash.hex ++ "|/фильмы|\n".toList))]

def emptyClient : @World lineFolder :=
  letI := lineFolder
  ⟨Disk.empty, [], .initial .none, []⟩

theorem wanted_backupFiles {rows : List (QString × QString)} {h : Sha1Hash} {path : QByteArray}
    (hw : Wanted rows backupFiles h path) :
    h = torrentB.infoHash ∧ path =
      cString (toUtf8 ((Assoc.find oldPath (chmagePathMap rows)).getD oldPath)) := by
  obtain ⟨old, group, hfind, rfl⟩ := hw
  have hlines : pathMap (pathLines (fromUtf8 ((Assoc.find pathResume backupFiles).getD []))) =
      [(torrentB.infoHash.hex, oldPath, [])] := by decide +kernel
  rw [hlines, Assoc.find_cons] at hfind
  split_ifs at hfind with hhash
  · obtain ⟨rfl, rfl⟩ := Prod.mk.inj (Option.some.inj hfind)
    exact ⟨(Sha1Hash.hex_injective hhash).symm, rfl⟩
  · cases hfind

theorem restorable_backupFiles {rows : List (QString × QString)} (hrows : ∀ row ∈ rows, FitsLine row.2) :
    @Restorable .unix rows backupFiles lineFolder sampleLibtorrent emptyClient := by
  let _ := lineFolder
  let _ := sampleLibtorrent
  refine ⟨by decide +kernel, by decide +kernel, by decide +kernel, by decide +kernel, hrows, ?_⟩
  intro h path hw
  obtain ⟨rfl, -⟩ := wanted_backupFiles hw
  exact ⟨torrentB, by decide +kernel, rfl, by decide, rfl⟩

theorem same_path_agrees :
    @PathsAgree .unix [] backupFiles lineFolder sampleLibtorrent emptyClient := by
  have hiff := @moves_iff .unix [] backupFiles lineFolder sampleLibtorrent emptyClient
    lineFolder_textStream (restorable_backupFiles fun _ h => absurd h List.not_mem_nil)
  refine hiff.mp ⟨by decide +kernel, fun h path hw => ?_⟩
  obtain ⟨rfl, rfl⟩ := wanted_backupFiles hw
  have hadded : Option.map (fun s => s.params.savePath) (Session.find (@World.session lineFolder
      (@ApplyBackup lineFolder sampleLibtorrent .unix [] backupFiles emptyClient).1)
        torrentB.infoHash) = some (toUtf8 oldPath) := by decide +kernel
  obtain ⟨s, hs, hpath⟩ := Option.map_eq_some_iff.mp hadded
  exact ⟨s, hs, hpath⟩

/-- The new path reaches path.resume, and the old one in the resume data wins. -/
theorem old_path_wins :
    ¬ ∀ (_ : DataFolder) (_ : Libtorrent) (_ : TextStream) (p : Platform)
      (rows : List (QString × QString)) (files : List (QString × QByteArray)) (w : World),
      Restorable p rows files w → Moves p rows files w := by
  intro h
  have hrows : ∀ row ∈ [(oldPath, "/b".toList)], FitsLine row.2 := by
    intro row hrow
    rw [List.mem_singleton.mp hrow]
    exact ⟨by decide, by decide, by decide⟩
  have hmoves := h lineFolder sampleLibtorrent lineFolder_textStream .unix
    [(oldPath, "/b".toList)] backupFiles emptyClient (restorable_backupFiles hrows)
  have hwanted : Wanted [(oldPath, "/b".toList)] backupFiles torrentB.infoHash
      (literal "/b") := ⟨oldPath, [], by decide +kernel, by decide +kernel⟩
  obtain ⟨s, hs, hpath⟩ := hmoves.2 _ _ hwanted
  have hadded := congrArg (Option.map fun s => s.params.savePath) hs
  rw [Option.map_some, hpath] at hadded
  revert hadded
  decide +kernel

end ApplyBackupPage
end CuteTorrent
