import CuteTorrent.ApplyBackupPage

/-! path.resume, read as it is and read after save paths were replaced in it, for
lines of any number of parts. -/
namespace CuteTorrent
open TorrentManager
namespace ApplyBackupPage

/-! ### The lines of the file -/

/-- The decoder takes a byte order mark away. -/
def withoutMark : QString → QString
  | [] => []
  | c :: text => if c = byteOrderMark then text else c :: text

/-- A carriage return in front of the end of a line belongs to that end. -/
def withoutReturn (line : QString) : QString :=
  if line.getLast? = some '\r' then line.dropLast else line

/-- `QTextStream::readLine` up to the end, with the codec for UTF-8. -/
def streamLines (text : QString) : List QString := (textLines (withoutMark text)).map withoutReturn

def readPath (line : QString) : Option (QString × QString × QString) :=
  match line.splitOn '|' with
  | [infoHash, path] => some (infoHash, path, [])
  | [infoHash, path, group] => some (infoHash, path, group)
  | _ => none

def moved (rows : List (QString × QString)) (info : QString × QString) : QString × QString :=
  ((Assoc.find info.1 (chmagePathMap rows)).getD info.1, info.2)

/-- The text is read to its end, before and after the paths are replaced, and each
torrent then has its path replaced and its group as before. -/
def Commutes (rows : List (QString × QString)) (text : QString) : Prop :=
  ∃ saved changed, savedPaths (streamLines text) [] = .ok saved ∧
    savedPaths (streamLines (newPathResumeData rows text)) [] = .ok changed ∧
    ∀ infoHash, Assoc.find infoHash changed = (Assoc.find infoHash saved).map (moved rows)

/-- What is read of a line once it is rewritten: only a line of three parts or more
is, and it comes out with three. -/
def changedPath (rows : List (QString × QString)) (line : QString) :
    Option (QString × QString × QString) :=
  match line.splitOn '|' with
  | [infoHash, path] => some (infoHash, path, [])
  | [infoHash, path, group] => some (infoHash, moved rows (path, group))
  | infoHash :: path :: group :: _ :: _ =>
    (Assoc.find path (chmagePathMap rows)).map fun newPath => (infoHash, newPath, withoutReturn group)
  | _ => none

def infoFor (infoHash : QString) (entry : QString × QString × QString) : Option (QString × QString) :=
  if entry.1 = infoHash then some entry.2 else none

def Counts (rows : List (QString × QString)) (infoHash line : QString) : Prop :=
  match line.splitOn '|' with
  | [hash, _] => hash = infoHash
  | [hash, _, _] => hash = infoHash
  | hash :: path :: _ :: _ :: _ => hash = infoHash ∧ (Assoc.find path (chmagePathMap rows)).isSome
  | _ => False

/-- The last line that counts for the hash: with two parts it keeps its path, which
must not be in the table; with more than three it must say what the last shorter
line in front of it says. -/
def LastAgrees (rows : List (QString × QString)) (lines : List QString) (infoHash : QString) : Prop :=
  ∀ before line after, lines = before ++ line :: after → Counts rows infoHash line →
    (∀ other ∈ after, ¬ Counts rows infoHash other) →
    match line.splitOn '|' with
    | [_, path] => moved rows (path, []) = (path, [])
    | _ :: path :: group :: _ :: _ => ∃ old,
        (before.filterMap fun other => (readPath other).bind (infoFor infoHash)).getLast? = some old ∧
          moved rows old = moved rows (path, withoutReturn group)
    | _ => True

/-! ### A mark and carriage returns -/

theorem intercalate_cons_head (sep c : Char) (s : QString) (ts : List QString) :
    [sep].intercalate ((c :: s) :: ts) = c :: [sep].intercalate (s :: ts) := by
  cases ts with
  | nil => simp
  | cons t ts => simp [List.intercalate_cons_cons]

theorem intercalate_concat (sep : Char) (parts : List QString) (last : QString) :
    [sep].intercalate (parts ++ [last]) = parts.flatMap (fun t => t ++ [sep]) ++ last := by
  induction parts with
  | nil => simp
  | cons t ts ih =>
    rw [List.cons_append, List.intercalate_cons_of_ne_nil (by simp), ih]
    simp

theorem splitOn_concat {sep c : Char} (hc : c ≠ sep) {s last : QString} {parts : List QString}
    (h : s.splitOn sep = parts ++ [last]) : (s ++ [c]).splitOn sep = parts ++ [last ++ [c]] := by
  have hs : s = [sep].intercalate (parts ++ [last]) := by rw [← h, List.intercalate_splitOn]
  have hfree : ∀ t ∈ parts ++ [last], sep ∉ t := fun t ht => not_mem_of_mem_splitOn (h ▸ ht)
  have hjoin : s ++ [c] = [sep].intercalate (parts ++ [last ++ [c]]) := by
    rw [hs, intercalate_concat, intercalate_concat, List.append_assoc]
  rw [hjoin, List.splitOn_intercalate sep ?_ (by simp)]
  intro t ht hsep
  rcases List.mem_append.mp ht with ht | ht
  · exact hfree t (List.mem_append_left _ ht) hsep
  · rw [List.mem_singleton.mp ht, List.mem_append, List.mem_singleton] at hsep
    rcases hsep with hsep | rfl
    · exact hfree last (by simp) hsep
    · exact hc rfl

theorem getLast?_eq_return {line : QString} (h : line.getLast? = some '\r') :
    line = line.dropLast ++ ['\r'] := by
  obtain ⟨s, rfl⟩ := List.getLast?_eq_some_iff.mp h
  rw [List.dropLast_concat]

theorem splitOn_withoutReturn {line : QString} (parts : List QString) (last : QString)
    (h : line.splitOn '|' = parts ++ [last]) :
    (withoutReturn line).splitOn '|' = parts ++ [withoutReturn last] := by
  by_cases hline : line.getLast? = some '\r'
  · have heq := getLast?_eq_return hline
    rw [withoutReturn, if_pos hline]
    generalize line.dropLast = s at heq ⊢
    subst heq
    obtain ⟨parts', last', hs⟩ : ∃ parts' last', s.splitOn '|' = parts' ++ [last'] := by
      rcases List.eq_nil_or_concat' (s.splitOn '|') with hnil | hconcat
      · exact absurd hnil (List.splitOn_ne_nil _ _)
      · exact hconcat
    rw [splitOn_concat (by decide) hs] at h
    obtain ⟨rfl, hlast⟩ := List.append_inj' h rfl
    obtain rfl : last' ++ ['\r'] = last := by simpa using hlast
    rw [hs, withoutReturn, if_pos (by simp), List.dropLast_concat]
  · have hlast : ¬ last.getLast? = some '\r' := by
      intro hr
      obtain ⟨s, rfl⟩ := List.getLast?_eq_some_iff.mp hr
      apply hline
      have hs : line = ['|'].intercalate (parts ++ [s ++ ['\r']]) := by
        rw [← h, List.intercalate_splitOn]
      rw [hs, intercalate_concat, ← List.append_assoc, List.getLast?_concat]
    rw [withoutReturn, if_neg hline, withoutReturn, if_neg hlast, h]

theorem bar_mem_withoutReturn (line : QString) : '|' ∈ withoutReturn line ↔ '|' ∈ line := by
  rw [withoutReturn]
  split_ifs with h
  · have heq := getLast?_eq_return h
    constructor
    · exact List.mem_of_mem_dropLast
    · intro hbar
      rw [heq, List.mem_append, List.mem_singleton] at hbar
      exact hbar.resolve_right (by decide)
  · rfl

theorem withoutMark_of_head {text : QString} (h : text.head? ≠ some byteOrderMark) :
    withoutMark text = text := by
  cases text with
  | nil => rfl
  | cons c text => exact if_neg fun hc => h (congrArg some hc)

theorem mem_of_mem_textLines {text line : QString} {c : Char} (hline : line ∈ textLines text)
    (hc : c ∈ line) : c ∈ text := by
  rw [textLines] at hline
  split_ifs at hline
  · exact mem_of_mem_part hc (List.mem_of_mem_dropLast hline)
  · exact mem_of_mem_part hc hline

theorem readLines_eq_streamLines [DataFolder] [TextStream] {text : QString} (hreturn : '\r' ∉ text)
    (hmark : text.head? ≠ some byteOrderMark) :
    DataFolder.readLines (toUtf8 text) = streamLines text := by
  have hsame : (textLines text).map withoutReturn = (textLines text).map id := by
    apply List.map_congr_left
    intro line hline
    exact if_neg fun hlast => hreturn (mem_of_mem_textLines hline (List.mem_of_getLast? hlast))
  rw [TextStream.readLines_toUtf8 text hreturn hmark, streamLines, withoutMark_of_head hmark, hsame,
    List.map_id]

section
variable {rows : List (QString × QString)}

theorem changeLine_cons {c : Char} (hc : c ≠ '|') (line : QString) :
    changeLine (chmagePathMap rows) (c :: line) = c :: changeLine (chmagePathMap rows) line := by
  obtain ⟨t, ts, hparts⟩ := List.exists_cons_of_ne_nil (List.splitOn_ne_nil '|' line)
  have hcons : (c :: line).splitOn '|' = (c :: t) :: ts := by
    rw [List.splitOn_cons_eq_if_modifyHead, hparts, if_neg (by simpa using hc)]
    rfl
  rw [changeLine, changeLine, hcons, hparts]
  match ts with
  | [] => rfl
  | [_] => rfl
  | path :: group :: _ =>
    dsimp only
    cases Assoc.find path (chmagePathMap rows) <;> rfl

theorem withoutMark_newPathResumeData (text : QString) :
    withoutMark (newPathResumeData rows text) = newPathResumeData rows (withoutMark text) := by
  by_cases hmark : text.head? = some byteOrderMark
  · obtain ⟨text, rfl⟩ := List.head?_eq_some_iff.mp hmark
    obtain ⟨t, ts, hlines⟩ := List.exists_cons_of_ne_nil (List.splitOn_ne_nil '\n' text)
    have hcons : (byteOrderMark :: text).splitOn '\n' = (byteOrderMark :: t) :: ts := by
      rw [List.splitOn_cons_eq_if_modifyHead, hlines, if_neg (by decide)]
      rfl
    have hnew : newPathResumeData rows (byteOrderMark :: text) =
        byteOrderMark :: newPathResumeData rows text := by
      rw [newPathResumeData, newPathResumeData, hcons, hlines, List.map_cons, List.map_cons,
        changeLine_cons (by decide), intercalate_cons_head]
    rw [hnew, withoutMark, withoutMark, if_pos rfl, if_pos rfl]
  · have htext : ['\n'].intercalate (text.splitOn '\n') = text := List.intercalate_splitOn '\n'
    rw [withoutMark_of_head hmark, withoutMark_of_head]
    rw [newPathResumeData, head_intercalate_map head_changeLine, htext]
    exact hmark

/-! ### One line -/

theorem savedPath_of_bar {line : QString} (h : '|' ∈ line) : savedPath line = .ok (readPath line) := by
  obtain ⟨r, hr⟩ := (savedPath_ok_iff line).mpr h
  rw [readPath]
  unfold savedPath at hr ⊢
  split at hr
  · cases hr
  · next hparts => rw [hparts]
  · next hparts => rw [hparts]
  · next htwo hthree =>
    split
    · next hparts => exact absurd hparts (htwo _ _)
    · next hparts => exact (hthree _ _ _ hparts).elim
    · rfl

theorem splitOn_newLine {infoHash newPath group : QString}
    (hfree : ∀ t ∈ [infoHash, newPath, group], '|' ∉ t) :
    (infoHash ++ '|' :: (newPath ++ '|' :: group)).splitOn '|' = [infoHash, newPath, group] := by
  have hline : infoHash ++ '|' :: (newPath ++ '|' :: group) =
      ['|'].intercalate [infoHash, newPath, group] := by
    simp [List.intercalate_cons_cons]
  rw [hline, List.splitOn_intercalate '|' hfree (by simp)]

theorem splitOn_withoutReturn_long {line infoHash path group x : QString} {rest : List QString}
    (h : line.splitOn '|' = infoHash :: path :: group :: x :: rest) :
    ∃ y ys, (withoutReturn line).splitOn '|' = infoHash :: path :: group :: y :: ys := by
  obtain ⟨ys, last, hys⟩ : ∃ ys last, x :: rest = ys ++ [last] := by
    rcases List.eq_nil_or_concat' (x :: rest) with hnil | hconcat
    · exact absurd hnil (by simp)
    · exact hconcat
  have hsplit := splitOn_withoutReturn (infoHash :: path :: group :: ys) last (by rw [h, hys]; rfl)
  cases ys with
  | nil => exact ⟨_, _, hsplit⟩
  | cons y ys => exact ⟨_, _, hsplit⟩

theorem savedPath_changeLine (hrows : ∀ row ∈ rows, '|' ∉ row.2) {line : QString} (h : '|' ∈ line) :
    savedPath (withoutReturn (changeLine (chmagePathMap rows) line)) =
      .ok (changedPath rows (withoutReturn line)) := by
  have hfree : ∀ t ∈ line.splitOn '|', '|' ∉ t := fun t ht => not_mem_of_mem_splitOn ht
  have hnewParts : ∀ infoHash path group, infoHash ∈ line.splitOn '|' ∧ group ∈ line.splitOn '|' →
      ∀ newPath, Assoc.find path (chmagePathMap rows) = some newPath →
        ∀ t ∈ [infoHash, newPath, group], '|' ∉ t := by
    rintro infoHash path group ⟨hhash, hgroup⟩ newPath hnew
    simp only [List.forall_mem_cons, List.not_mem_nil, false_imp_iff, implies_true, and_true]
    exact ⟨hfree _ hhash, hrows _ (mem_rows_of_find hnew), hfree _ hgroup⟩
  rw [changeLine, changedPath]
  rcases hparts : line.splitOn '|' with _ | ⟨infoHash, _ | ⟨path, _ | ⟨group, _ | ⟨x, rest⟩⟩⟩⟩
  · exact absurd hparts (List.splitOn_ne_nil _ _)
  · have hx : line = infoHash := by
      have hjoin : ['|'].intercalate (line.splitOn '|') = line := List.intercalate_splitOn '|'
      rw [hparts] at hjoin
      simpa using hjoin.symm
    exact absurd (hx ▸ h) (hfree infoHash (by simp [hparts]))
  · have hsplit : (withoutReturn line).splitOn '|' = [infoHash, withoutReturn path] :=
      splitOn_withoutReturn [infoHash] path hparts
    simp only [savedPath, hsplit]
  · have hsplit : (withoutReturn line).splitOn '|' = [infoHash, path, withoutReturn group] :=
      splitOn_withoutReturn [infoHash, path] group hparts
    have hparts' := hnewParts infoHash path group (by simp [hparts])
    simp only [hsplit, moved]
    cases hnew : Assoc.find path (chmagePathMap rows) with
    | none => simp only [savedPath, hsplit, Option.getD_none]
    | some newPath =>
      have hsplit' := splitOn_withoutReturn [infoHash, newPath] group
        (splitOn_newLine (hparts' newPath hnew))
      rw [List.cons_append, List.cons_append, List.nil_append] at hsplit'
      simp only [savedPath, hsplit', Option.getD_some]
  · have hparts' := hnewParts infoHash path group (by simp [hparts])
    obtain ⟨y, ys, hsplit⟩ := splitOn_withoutReturn_long hparts
    simp only [hsplit]
    cases hnew : Assoc.find path (chmagePathMap rows) with
    | none => simp only [savedPath, hsplit, Option.map_none]
    | some newPath =>
      have hsplit' := splitOn_withoutReturn [infoHash, newPath] group
        (splitOn_newLine (hparts' newPath hnew))
      rw [List.cons_append, List.cons_append, List.nil_append] at hsplit'
      simp only [savedPath, hsplit', Option.map_some]

/-! ### All lines -/

theorem savedPaths_eq_ok {g : QString → QString} {f : QString → Option (QString × QString × QString)}
    {lines : List QString} (h : ∀ line ∈ lines, savedPath (g line) = .ok (f line))
    (m : List (QString × QString × QString)) :
    savedPaths (lines.map g) m =
      .ok ((lines.filterMap f).foldl (fun m e => Assoc.insert e.1 e.2 m) m) := by
  induction lines generalizing m with
  | nil => rfl
  | cons line lines ih =>
    have hrest := ih fun t ht => h t (List.mem_cons_of_mem _ ht)
    rw [List.map_cons, savedPaths, h line List.mem_cons_self, List.filterMap_cons]
    cases f line with
    | none => exact hrest m
    | some e => exact hrest _

theorem find_eq_head? (infoHash : QString) (l : List (QString × QString × QString)) :
    Assoc.find infoHash l = (l.filterMap (infoFor infoHash)).head? := by
  induction l with
  | nil => rfl
  | cons e l ih =>
    rw [Assoc.find_cons, List.filterMap_cons, infoFor]
    split_ifs
    · rfl
    · exact ih

theorem find_saved (infoHash : QString) (f : QString → Option (QString × QString × QString))
    (lines : List QString) :
    Assoc.find infoHash ((lines.filterMap f).foldl (fun m e => Assoc.insert e.1 e.2 m) []) =
      (lines.filterMap fun line => (f line).bind (infoFor infoHash)).getLast? := by
  rw [Assoc.find_foldl_insert_nil, find_eq_head?, List.filterMap_reverse, List.head?_reverse,
    List.filterMap_filterMap]

theorem getLast?_filterMap_of_none {f : QString → Option (QString × QString)}
    {before after : List QString} {line : QString} (h : ∀ other ∈ after, f other = none) :
    ((before ++ line :: after).filterMap f).getLast? =
      (f line).or (before.filterMap f).getLast? := by
  have hafter : after.filterMap f = [] := List.filterMap_eq_nil_iff.mpr h
  rw [List.filterMap_append, List.filterMap_cons, hafter]
  cases f line with
  | none => simp
  | some info => simp

theorem exists_last {P : QString → Prop} {lines : List QString} (h : ∃ line ∈ lines, P line) :
    ∃ before line after, lines = before ++ line :: after ∧ P line ∧ ∀ other ∈ after, ¬ P other := by
  induction lines with
  | nil =>
    obtain ⟨line, hline, -⟩ := h
    exact absurd hline List.not_mem_nil
  | cons line lines ih =>
    by_cases hrest : ∃ other ∈ lines, P other
    · obtain ⟨before, last, after, rfl, hlast⟩ := ih hrest
      exact ⟨line :: before, last, after, rfl, hlast⟩
    · rw [not_exists] at hrest
      obtain ⟨other, hother, hP⟩ := h
      rcases List.mem_cons.mp hother with rfl | hmem
      · exact ⟨[], other, lines, rfl, hP, fun t ht hPt => hrest t ⟨ht, hPt⟩⟩
      · exact absurd ⟨hmem, hP⟩ (hrest other)

variable {infoHash : QString}

theorem counts_iff {line : QString} :
    Counts rows infoHash line ↔ ((changedPath rows line).bind (infoFor infoHash)).isSome := by
  rw [Counts, changedPath]
  split
  · simp [infoFor]
  · simp [infoFor]
  · next hash path group x rest hparts =>
    cases Assoc.find path (chmagePathMap rows) <;> simp [infoFor]
  · simp

theorem counts_of_readPath {line : QString} (h : ((readPath line).bind (infoFor infoHash)).isSome) :
    Counts rows infoHash line := by
  rw [readPath] at h
  rw [Counts]
  split at h
  · next hparts => simpa [hparts, infoFor] using h
  · next hparts => simpa [hparts, infoFor] using h
  · simp at h

/-- Of the lines in front of the last that counts, only a line of more than three
parts lets one be seen. -/
theorem agrees_iff_of_last {before after : List QString} {line : QString}
    (hline : Counts rows infoHash line) (hafter : ∀ other ∈ after, ¬ Counts rows infoHash other) :
    ((before ++ line :: after).filterMap fun l =>
        (changedPath rows l).bind (infoFor infoHash)).getLast? =
      ((before ++ line :: after).filterMap fun l =>
        (readPath l).bind (infoFor infoHash)).getLast?.map (moved rows) ↔
    match line.splitOn '|' with
    | [_, path] => moved rows (path, []) = (path, [])
    | _ :: path :: group :: _ :: _ => ∃ old,
        (before.filterMap fun other => (readPath other).bind (infoFor infoHash)).getLast? = some old ∧
          moved rows old = moved rows (path, withoutReturn group)
    | _ => True := by
  rw [getLast?_filterMap_of_none, getLast?_filterMap_of_none]
  rotate_left
  · intro other hother
    by_contra hne
    exact hafter other hother (counts_of_readPath (Option.isSome_iff_ne_none.mpr hne))
  · intro other hother
    by_contra hne
    exact hafter other hother (counts_iff.mpr (Option.isSome_iff_ne_none.mpr hne))
  rw [Counts] at hline
  rw [changedPath, readPath]
  split at hline
  · next hash path hparts =>
    subst hline
    simp [hparts, infoFor, eq_comm]
  · next hash path group hparts =>
    subst hline
    simp [hparts, infoFor]
  · next hash path group x rest hparts =>
    obtain ⟨rfl, hpath⟩ := hline
    obtain ⟨newPath, hnew⟩ := Option.isSome_iff_exists.mp hpath
    have hmoved : moved rows (path, withoutReturn group) = (newPath, withoutReturn group) := by
      simp [moved, hnew]
    simp only [hparts, hnew, Option.map_some, Option.bind_some, Option.bind_none, infoFor, if_true,
      Option.some_or, Option.none_or, hmoved]
    rw [eq_comm, Option.map_eq_some_iff]
  · exact hline.elim

theorem agrees_iff (lines : List QString) :
    (lines.filterMap fun l => (changedPath rows l).bind (infoFor infoHash)).getLast? =
      (lines.filterMap fun l => (readPath l).bind (infoFor infoHash)).getLast?.map (moved rows) ↔
    LastAgrees rows lines infoHash := by
  constructor
  · rintro h before line after rfl hline hafter
    exact (agrees_iff_of_last hline hafter).mp h
  · intro h
    by_cases hany : ∃ line ∈ lines, Counts rows infoHash line
    · obtain ⟨before, line, after, rfl, hline, hafter⟩ := exists_last hany
      exact (agrees_iff_of_last hline hafter).mpr (h before line after rfl hline hafter)
    · have hchanged : (lines.filterMap fun l => (changedPath rows l).bind (infoFor infoHash)) = [] := by
        rw [List.filterMap_eq_nil_iff]
        intro line hline
        by_contra hne
        exact hany ⟨line, hline, counts_iff.mpr (Option.isSome_iff_ne_none.mpr hne)⟩
      have hread : (lines.filterMap fun l => (readPath l).bind (infoFor infoHash)) = [] := by
        rw [List.filterMap_eq_nil_iff]
        intro line hline
        by_contra hne
        exact hany ⟨line, hline, counts_of_readPath (Option.isSome_iff_ne_none.mpr hne)⟩
      rw [hchanged, hread]
      rfl

theorem savedPaths_streamLines {text : QString} (hbar : ∀ line ∈ streamLines text, '|' ∈ line) :
    savedPaths (streamLines text) [] = .ok (((streamLines text).filterMap readPath).foldl
      (fun m e => Assoc.insert e.1 e.2 m) []) := by
  have hsame := savedPaths_eq_ok (g := id) (fun line hline => savedPath_of_bar (hbar line hline)) []
  rwa [List.map_id] at hsame

theorem savedPaths_newPathResumeData (hrows : ∀ row ∈ rows, '|' ∉ row.2 ∧ '\n' ∉ row.2) {text : QString}
    (hbar : ∀ line ∈ streamLines text, '|' ∈ line) :
    savedPaths (streamLines (newPathResumeData rows text)) [] =
      .ok (((streamLines text).filterMap (changedPath rows)).foldl
        (fun m e => Assoc.insert e.1 e.2 m) []) := by
  rw [streamLines, withoutMark_newPathResumeData,
    textLines_newPathResumeData (fun row hrow => (hrows row hrow).2), List.map_map, streamLines,
    List.filterMap_map]
  apply savedPaths_eq_ok
  intro line hline
  apply savedPath_changeLine fun row hrow => (hrows row hrow).1
  rw [← bar_mem_withoutReturn]
  exact hbar _ (List.mem_map_of_mem hline)

/-- Reading and rewriting commute exactly when no line is without a bar and, for every
hash, the last line that counts after the rewriting agrees with the text. -/
theorem commutes_iff (hrows : ∀ row ∈ rows, '|' ∉ row.2 ∧ '\n' ∉ row.2) (text : QString) :
    Commutes rows text ↔ (∀ line ∈ streamLines text, '|' ∈ line) ∧
      ∀ infoHash, LastAgrees rows (streamLines text) infoHash := by
  constructor
  · rintro ⟨saved, changed, hsaved, hchanged, hall⟩
    have hbar := (savedPaths_ok_iff _ _).mp ⟨saved, hsaved⟩
    refine ⟨hbar, fun infoHash => (agrees_iff _).mp ?_⟩
    rw [← Except.ok.inj ((savedPaths_streamLines hbar).symm.trans hsaved),
      ← Except.ok.inj ((savedPaths_newPathResumeData hrows hbar).symm.trans hchanged)] at hall
    have hhash := hall infoHash
    rwa [find_saved, find_saved] at hhash
  · rintro ⟨hbar, hagrees⟩
    refine ⟨_, _, savedPaths_streamLines hbar, savedPaths_newPathResumeData hrows hbar, ?_⟩
    intro infoHash
    rw [find_saved, find_saved]
    exact (agrees_iff _).mpr (hagrees infoHash)

end

def shortLine : QString := "h|/a\n".toList

def toB : List (QString × QString) := [("/a".toList, "/b".toList)]

theorem toB_fits : ∀ row ∈ toB, '|' ∉ row.2 ∧ '\n' ∉ row.2 := by
  intro row hrow
  rw [List.mem_singleton.mp hrow]
  exact ⟨by decide, by decide⟩

theorem commutes_fullLine_iff : Commutes toB "h|/a|g\n".toList ↔
    (∀ line ∈ streamLines "h|/a|g\n".toList, '|' ∈ line) ∧
      ∀ infoHash, LastAgrees toB (streamLines "h|/a|g\n".toList) infoHash :=
  commutes_iff toB_fits _

/-- The reader takes the short line, and the rewriting leaves it as it is. -/
theorem short_line_keeps_path : ¬ ∀ (rows : List (QString × QString)) (text : QString),
    (∀ row ∈ rows, '|' ∉ row.2 ∧ '\n' ∉ row.2) → Commutes rows text := by
  intro h
  obtain ⟨saved, changed, hsaved, hchanged, hall⟩ := h toB shortLine toB_fits
  have hread : savedPaths (streamLines shortLine) [] = .ok [("h".toList, "/a".toList, [])] := by
    decide +kernel
  have hrewritten : savedPaths (streamLines (newPathResumeData toB shortLine)) [] =
      .ok [("h".toList, "/a".toList, [])] := by decide +kernel
  rw [hread] at hsaved
  rw [hrewritten] at hchanged
  have hhash := hall "h".toList
  rw [← Except.ok.inj hsaved, ← Except.ok.inj hchanged] at hhash
  revert hhash
  decide +kernel

end ApplyBackupPage
end CuteTorrent
