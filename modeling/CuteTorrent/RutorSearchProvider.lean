import CuteTorrent.SearchPage

/-! `RutorSearchProvider::ParseTableBody`: five columns to a result, or four where the
size stands in the third. -/
namespace CuteTorrent
namespace RutorSearchProvider
open SearchPage

def Name : QString := "Rutor".toList

def Url : QString := "http://rutor.org/".toList

def url (tag : RoseTree QSgmlTag) : QString := tag.label.getAttributeValue "href".toList

section
variable [QtTables] (sgml : QSgml)

def isFile (child : RoseTree QSgmlTag) : Bool :=
  isLink child && "http://d.rutor.org".toList.isPrefixOf (url child)

def isDesc (child : RoseTree QSgmlTag) : Bool :=
  isLink child && "/torrent".toList.isPrefixOf (url child)

def link (pCurrentSearchResult : Option SearchResult) (pChild : RoseTree QSgmlTag) :
    Except Fault (Option SearchResult) :=
  if isLink pChild then
    if "http://d.rutor.org".toList.isPrefixOf (url pChild) then
      .ok (some { newSearchResult with TorrentFileUrl := url pChild })
    else if "/torrent".toList.isPrefixOf (url pChild) then
      match pCurrentSearchResult with
      | none => .error .nullPointer
      | some r =>
        .ok (some { r with
          Name := sgml.getInnerText pChild.label
          TorrentDescUrl := Url ++ url pChild })
    else .ok pCurrentSearchResult
  else .ok pCurrentSearchResult

def span (p : Platform) (r : SearchResult) (pChild : RoseTree QSgmlTag) : SearchResult :=
  if isNamed "span".toList pChild then
    let innerHtml := replaced "&nbsp;".toList [] (sgml.getInnerText pChild.label)
    if pChild.label.checkAttribute "class".toList "green".toList then
      match innerHtml.findIdx? (· = '>') with
      | none => { r with seeders := -1 }
      | some innerTagEnd =>
        { r with seeders := (toLong p (mid innerHtml (innerTagEnd + 1) (-1))).getD (-1) }
    else if pChild.label.checkAttribute "class".toList "red".toList then
      { r with leechers := (toLong p innerHtml).getD (-1) }
    else r
  else r

/-! ### The links -/

def hasFile (cell : RoseTree QSgmlTag) : Bool := cell.children.any isFile

def FileFirst (children : List (RoseTree QSgmlTag)) : Prop :=
  ∀ child ∈ children.takeWhile fun child => !isFile child, isDesc child = false

theorem link_file {child : RoseTree QSgmlTag} (h : isFile child = true) (r : Option SearchResult) :
    ∃ r', link sgml r child = .ok (some r') := by
  obtain ⟨ha, hurl⟩ := Bool.and_eq_true_iff.mp h
  unfold link
  rw [if_pos ha, if_pos hurl]
  exact ⟨_, rfl⟩

theorem not_file_url {child : RoseTree QSgmlTag} (hfile : isFile child = false)
    (ha : isLink child = true) : ¬ "http://d.rutor.org".toList.isPrefixOf (url child) = true := by
  intro hurl
  exact absurd (hfile.symm.trans (Bool.and_eq_true_iff.mpr ⟨ha, hurl⟩)) Bool.false_ne_true

theorem link_desc {child : RoseTree QSgmlTag} (hfile : isFile child = false)
    (h : isDesc child = true) :
    link sgml none child = .error .nullPointer ∧
      ∀ r, ∃ r', link sgml (some r) child = .ok (some r') := by
  obtain ⟨ha, hurl⟩ := Bool.and_eq_true_iff.mp h
  have hother := not_file_url hfile ha
  constructor
  · unfold link
    rw [if_pos ha, if_neg hother, if_pos hurl]
  · intro r
    unfold link
    rw [if_pos ha, if_neg hother, if_pos hurl]
    exact ⟨_, rfl⟩

theorem link_other {child : RoseTree QSgmlTag} (hfile : isFile child = false)
    (hdesc : isDesc child = false) (r : Option SearchResult) : link sgml r child = .ok r := by
  unfold link
  by_cases ha : isLink child = true
  · have hurl : ¬ "/torrent".toList.isPrefixOf (url child) = true := by
      intro hurl
      exact absurd (hdesc.symm.trans (Bool.and_eq_true_iff.mpr ⟨ha, hurl⟩)) Bool.false_ne_true
    rw [if_pos ha, if_neg (not_file_url hfile ha), if_neg hurl]
  · rw [if_neg ha]

theorem links_forth (children : List (RoseTree QSgmlTag)) (r : Option SearchResult)
    (h : r.isSome = false → FileFirst children) :
    ∃ r', children.foldlM (link sgml) r = .ok r' ∧
      r'.isSome = (r.isSome || children.any isFile) := by
  induction children generalizing r with
  | nil => exact ⟨r, rfl, by simp⟩
  | cons child children ih =>
    rw [List.foldlM_cons]
    cases hfile : isFile child with
    | true =>
      obtain ⟨r', hlink⟩ := link_file sgml hfile r
      obtain ⟨r'', hrun, hsome⟩ := ih (some r') fun hno => absurd hno (by simp)
      rw [hlink]
      exact ⟨r'', hrun, by simpa [hfile] using hsome⟩
    | false =>
      cases hdesc : isDesc child with
      | true =>
        cases r with
        | none =>
          have hnot := h rfl child (by simp [hfile])
          rw [hdesc] at hnot
          exact absurd hnot.symm Bool.false_ne_true
        | some r =>
          obtain ⟨r', hlink⟩ := (link_desc sgml hfile hdesc).2 r
          obtain ⟨r'', hrun, hsome⟩ := ih (some r') fun hno => absurd hno (by simp)
          rw [hlink]
          exact ⟨r'', hrun, by simpa using hsome⟩
      | false =>
        have hrest : r.isSome = false → FileFirst children := by
          intro hno child' hchild'
          exact h hno child' (by simp [hfile, hchild'])
        obtain ⟨r', hrun, hsome⟩ := ih r hrest
        rw [link_other sgml hfile hdesc]
        exact ⟨r', hrun, by simpa [hfile] using hsome⟩

theorem links_back (children : List (RoseTree QSgmlTag)) {r : Option SearchResult}
    (h : children.foldlM (link sgml) none = .ok r) : FileFirst children := by
  induction children with
  | nil => exact fun child hchild => absurd hchild List.not_mem_nil
  | cons child children ih =>
    rw [List.foldlM_cons] at h
    cases hfile : isFile child with
    | true =>
      intro child' hchild'
      simp [hfile] at hchild'
    | false =>
      cases hdesc : isDesc child with
      | true =>
        rw [(link_desc sgml hfile hdesc).1] at h
        cases h
      | false =>
        rw [link_other sgml hfile hdesc] at h
        intro child' hchild'
        rw [List.takeWhile_cons_of_pos (by simp [hfile])] at hchild'
        cases List.mem_cons.mp hchild' with
        | inl hfirst => exact hfirst ▸ hdesc
        | inr hlater => exact ih h child' hlater

def linked (cell : RoseTree QSgmlTag) : SearchResult :=
  match cell.children.foldlM (link sgml) none with
  | .ok (some r) => r
  | _ => newSearchResult

theorem links_eq_linked {cell : RoseTree QSgmlTag} (hfile : hasFile cell = true)
    (hfirst : FileFirst cell.children) :
    cell.children.foldlM (link sgml) none = .ok (some (linked sgml cell)) := by
  obtain ⟨r, hrun, hsome⟩ := links_forth sgml cell.children none fun _ => hfirst
  rw [← hasFile, hfile, Bool.or_true] at hsome
  obtain ⟨r, rfl⟩ := Option.isSome_iff_exists.mp hsome
  rw [linked, hrun]

variable [QtConversions]

def isSize (cell : RoseTree QSgmlTag) : Bool := (sizeNumber (sizeHtmlStr sgml cell)).isSome

def column (p : Platform) (s : ParseState) (pCurrent : RoseTree QSgmlTag) :
    Except Fault ParseState :=
  match s.tdCounter with
  | 1 =>
    match pCurrent.children.foldlM (link sgml) s.pCurrentSearchResult with
    | .error f => .error f
    | .ok r => .ok { s with pCurrentSearchResult := r }
  | 2 | 3 =>
    match s.pCurrentSearchResult with
    | none => .ok s
    | some r =>
      match fillSize (sizeHtmlStr sgml pCurrent) r with
      | .error f => .error f
      | .ok (r, outside) =>
        .ok { s with
          pCurrentSearchResult := some r
          outside := s.outside || outside
          tdCounter := if isSize sgml pCurrent ∧ s.tdCounter = 2 then 3 else s.tdCounter }
  | 4 =>
    match s.pCurrentSearchResult with
    | none => .ok s
    | some r =>
      .ok { s with
        searchResults := s.searchResults ++
          [some { pCurrent.children.foldl (span sgml p) r with Engine := Name }]
        pCurrentSearchResult := none }
  | _ => .ok s

def advance (s : ParseState) : ParseState :=
  { s with tdCounter := if s.tdCounter + 1 ≥ 5 then 0 else s.tdCounter + 1 }

def td (p : Platform) (s : ParseState) (pCurrent : RoseTree QSgmlTag) : Except Fault ParseState :=
  (column sgml p s pCurrent).map advance

def ParseTableBody (p : Platform) (tableBody : List (RoseTree QSgmlTag)) : Except Fault ParseState :=
  traverse (td sgml p) tableBody

/-! ### What a cell needs -/

def next : Nat × Bool → RoseTree QSgmlTag → Nat × Bool
  | (1, held), cell => (2, held || hasFile cell)
  | (2, held), cell => (if held && isSize sgml cell then 4 else 3, held)
  | (4, _), _ => (0, false)
  | (n, held), _ => (if n + 1 ≥ 5 then 0 else n + 1, held)

def Allowed : Nat × Bool → RoseTree QSgmlTag → Prop
  | (1, held), cell => held = false → FileFirst cell.children
  | (2, held), cell => held = true → UnitStands (sizeHtmlStr sgml cell)
  | (3, held), cell => held = true → UnitStands (sizeHtmlStr sgml cell)
  | _, _ => True

theorem td_forth (p : Platform) (s : ParseState) (cell : RoseTree QSgmlTag) (hs : Sound Name s)
    (h : Allowed sgml (place s) cell) :
    ∃ s', td sgml p s cell = .ok s' ∧ Sound Name s' ∧ place s' = next sgml (place s) cell := by
  obtain ⟨n, results, current, outside⟩ := s
  match n with
  | 0 => exact ⟨_, rfl, hs, rfl⟩
  | 1 =>
    obtain ⟨r, hlinks, hsome⟩ := links_forth sgml cell.children current h
    refine ⟨⟨2, results, r, outside⟩, ?_, hs, ?_⟩
    · simp only [td, column, hlinks]
      rfl
    · simp only [place, next, hasFile, hsome]
  | 2 =>
    cases current with
    | none => exact ⟨_, rfl, hs, rfl⟩
    | some r =>
      obtain ⟨r', hr'⟩ := (fillSize_ok_iff (sizeHtmlStr sgml cell) r).mpr (h rfl)
      refine ⟨⟨if isSize sgml cell then 4 else 3, results, some r', outside || false⟩, ?_,
        ⟨by simpa using hs.1, hs.2⟩, ?_⟩
      · simp only [td, column, hr']
        by_cases hsize : isSize sgml cell = true <;> simp [hsize, advance, Except.map]
      · simp [place, next]
  | 3 =>
    cases current with
    | none => exact ⟨_, rfl, hs, rfl⟩
    | some r =>
      obtain ⟨r', hr'⟩ := (fillSize_ok_iff (sizeHtmlStr sgml cell) r).mpr (h rfl)
      refine ⟨⟨4, results, some r', outside || false⟩, ?_, ⟨by simpa using hs.1, hs.2⟩, rfl⟩
      simp only [td, column, hr']
      simp [advance, Except.map]
  | 4 =>
    cases current with
    | none => exact ⟨_, rfl, hs, rfl⟩
    | some r => exact ⟨_, rfl, hs.emit (cell.children.foldl (span sgml p) r) 0, rfl⟩
  | _ + 5 => exact ⟨_, rfl, hs, rfl⟩

theorem td_back (p : Platform) (s : ParseState) (cell : RoseTree QSgmlTag) (s' : ParseState)
    (h : td sgml p s cell = .ok s') (hs' : Sound Name s') :
    Sound Name s ∧ Allowed sgml (place s) cell := by
  obtain ⟨n, results, current, outside⟩ := s
  match n with
  | 0 | _ + 5 =>
    cases h
    exact ⟨hs', trivial⟩
  | 1 =>
    simp only [td, column] at h
    cases hlinks : cell.children.foldlM (link sgml) current with
    | error f =>
      rw [hlinks] at h
      cases h
    | ok r =>
      rw [hlinks] at h
      cases h
      refine ⟨hs', fun hno => links_back sgml cell.children (r := r) ?_⟩
      rwa [← Option.not_isSome_iff_eq_none.mp (Bool.eq_false_iff.mp hno)]
  | 2 | 3 =>
    cases current with
    | none =>
      cases h
      exact ⟨hs', fun hno => absurd hno Bool.false_ne_true⟩
    | some r =>
      simp only [td, column] at h
      cases hfill : fillSize (sizeHtmlStr sgml cell) r with
      | error f =>
        rw [hfill] at h
        cases h
      | ok filled =>
        rw [hfill] at h
        cases h
        obtain ⟨houtside, hunit⟩ := unitStands_of_fillSize hfill hs'.1
        exact ⟨⟨houtside, hs'.2⟩, fun _ => hunit⟩
  | 4 =>
    cases current with
    | none =>
      cases h
      exact ⟨hs', trivial⟩
    | some r =>
      cases h
      exact ⟨⟨hs'.1, fun e he => hs'.2 e (List.mem_append_left _ he)⟩, trivial⟩

/-- A row has four cells where the second links to a file and the third is a size. -/
def behind (cells : List (RoseTree QSgmlTag)) : Nat :=
  if cells[0]?.any hasFile ∧ cells[1]?.any (isSize sgml) then 3 else 4

/-- In the second cell no description is linked before a file; and where a file is linked,
the first size of the next two cells is no number with nothing behind the space. -/
def RowAllowed (row : List (RoseTree QSgmlTag)) : Prop :=
  ∀ links ∈ row[1]?, FileFirst links.children ∧
    (hasFile links = true → ∀ size ∈ ((row.drop 2).take 2).find? (isSize sgml),
      UnitStands (sizeHtmlStr sgml size))

theorem unitStands_of_not_size {cell : RoseTree QSgmlTag} (h : isSize sgml cell = false) :
    UnitStands (sizeHtmlStr sgml cell) :=
  fun hsize => absurd (hsize.symm.trans h) (by decide)

theorem row_allowed_iff (c : RoseTree QSgmlTag) (cs : List (RoseTree QSgmlTag)) :
    Runs.Along (next sgml) (Allowed sgml) (0, false) (c :: cs.take (behind sgml cs)) ↔
      RowAllowed sgml (c :: cs.take (behind sgml cs)) := by
  rcases cs with _ | ⟨links, _ | ⟨a, rest⟩⟩
  · simp [Runs.Along, Allowed, RowAllowed]
  · have hbehind : 1 ≤ behind sgml [links] := by
      unfold behind
      split_ifs <;> omega
    rw [List.take_of_length_le hbehind]
    simp [Runs.Along, Allowed, RowAllowed, next]
  · cases hfile : hasFile links with
    | false =>
      have hbehind : behind sgml (links :: a :: rest) = 4 := by simp [behind, hfile]
      rw [hbehind]
      rcases rest with _ | ⟨b, _ | ⟨d, rest⟩⟩ <;>
        simp [Runs.Along, Allowed, RowAllowed, next, hfile]
    | true =>
      cases ha : isSize sgml a with
      | true =>
        have hbehind : behind sgml (links :: a :: rest) = 3 := by simp [behind, hfile, ha]
        rw [hbehind]
        cases rest <;> simp [Runs.Along, Allowed, RowAllowed, next, hfile, ha]
      | false =>
        have hbehind : behind sgml (links :: a :: rest) = 4 := by simp [behind, ha]
        have hstands := unitStands_of_not_size sgml ha
        have hlast : ∀ b, isSize sgml b = true ∨ UnitStands (sizeHtmlStr sgml b) := by
          intro b
          cases hb : isSize sgml b with
          | true => exact .inl rfl
          | false => exact .inr (unitStands_of_not_size sgml hb)
        rw [hbehind]
        rcases rest with _ | ⟨b, _ | ⟨d, rest⟩⟩
        · simp [Runs.Along, Allowed, RowAllowed, next, hfile, ha, hstands]
        · simp [Runs.Along, Allowed, RowAllowed, next, hfile, ha, hstands, hlast]
        · simp [Runs.Along, Allowed, RowAllowed, next, hfile, ha, hstands, hlast]

theorem row_final (c : RoseTree QSgmlTag) (cs : List (RoseTree QSgmlTag))
    (h : behind sgml cs ≤ cs.length) :
    Runs.final (next sgml) (0, false) (c :: cs.take (behind sgml cs)) = (0, false) := by
  unfold behind at h ⊢
  split_ifs at h ⊢ with hfour
  · match cs, h with
    | links :: a :: b :: _, _ =>
      obtain ⟨hfile, hsize⟩ : hasFile links = true ∧ isSize sgml a = true := by simpa using hfour
      simp [next, hfile, hsize]
  · match cs, h with
    | links :: a :: b :: d :: _, _ =>
      have hfive : (hasFile links && isSize sgml a) = false := by simpa using hfour
      simp [next, hfive]

theorem safeParse_iff (p : Platform) (tableBody : List (RoseTree QSgmlTag)) :
    SafeParse Name (ParseTableBody sgml p tableBody) ↔
      ∀ row ∈ cutRows (behind sgml) (cellsOf tableBody), RowAllowed sgml row := by
  rw [SafeParse, ParseTableBody, traverse_eq]
  rw [Runs.foldlM_good_iff_along (td_forth sgml p) (td_back sgml p) (sound_initial Name)]
  exact along_cutRows (row_allowed_iff sgml) (row_final sgml) (cellsOf tableBody)

/-! ### What a row gives -/

def filled (p : Platform) (links size counts : RoseTree QSgmlTag) : SearchResult :=
  { counts.children.foldl (span sgml p) (withSize (sizeHtmlStr sgml size) (linked sgml links)) with
    Engine := Name }

/-- What the cells of a row put into a result: in a row of five the third is passed over. -/
def resultOf (p : Platform) (cells : List (RoseTree QSgmlTag)) : SearchResult :=
  match cells with
  | [_, links, size, counts] => filled sgml p links size counts
  | [_, links, _, size, counts] => filled sgml p links size counts
  | _ => newSearchResult

/-- Four cells with the size in the third, or five with no size there and the size in the
fourth; and in the second a file is linked before any description. -/
structure WellFormed (row : RoseTree QSgmlTag) : Prop where
  columns : (rowCells row).length = 4 ∧
      (∀ size ∈ (rowCells row)[2]?, SizeReads (sizeHtmlStr sgml size)) ∨
    (rowCells row).length = 5 ∧ (∀ cell ∈ (rowCells row)[2]?, isSize sgml cell = false) ∧
      ∀ size ∈ (rowCells row)[3]?, SizeReads (sizeHtmlStr sgml size)
  linked : ∀ links ∈ (rowCells row)[1]?, hasFile links = true ∧ FileFirst links.children

theorem fillSize_of_not_size {cell : RoseTree QSgmlTag} (h : isSize sgml cell = false)
    (r : SearchResult) :
    ∃ n, fillSize (sizeHtmlStr sgml cell) r = .ok ({ r with size := n }, false) := by
  have hnumber : sizeNumber (sizeHtmlStr sgml cell) = none :=
    Option.isNone_iff_eq_none.mp (Option.isSome_eq_false_iff.mp h)
  rw [fillSize, hnumber]
  split_ifs
  · exact ⟨-1, rfl⟩
  · exact ⟨r.size, rfl⟩

theorem row_result (p : Platform) {row : RoseTree QSgmlTag} (h : WellFormed sgml row)
    (results : List (Option SearchResult)) (outside : Bool) :
    ∃ outside', (rowCells row).foldlM (td sgml p) ⟨0, results, none, outside⟩ =
      .ok ⟨0, results ++ [some (resultOf sgml p (rowCells row))], none, outside'⟩ := by
  obtain ⟨hcolumns, hlinked⟩ := h
  generalize rowCells row = cells at hcolumns hlinked ⊢
  rcases hcolumns with ⟨hfour, hsize⟩ | ⟨hfive, hother, hsize⟩
  · match cells, hfour with
    | [date, links, size, counts], _ =>
      have hlinks := links_eq_linked sgml (hlinked links rfl).1 (hlinked links rfl).2
      have hreads := hsize size rfl
      have htaken : isSize sgml size = true := hreads.isSome
      obtain ⟨read, hfill⟩ := fillSize_eq_withSize (sizeHtmlStr sgml size)
        (fun _ => hreads.second_part) (linked sgml links)
      refine ⟨outside || read, ?_⟩
      simp [td, column, advance, resultOf, filled, hlinks, hfill, htaken, Except.map, bind,
        Except.bind, pure, Except.pure]
  · match cells, hfive with
    | [date, links, comments, size, counts], _ =>
      have hlinks := links_eq_linked sgml (hlinked links rfl).1 (hlinked links rfl).2
      have hnot := hother comments rfl
      have hreads := hsize size rfl
      obtain ⟨n, hcomments⟩ := fillSize_of_not_size sgml hnot (linked sgml links)
      obtain ⟨read, hfill⟩ := fillSize_eq_withSize (sizeHtmlStr sgml size)
        (fun _ => hreads.second_part) (linked sgml links)
      have hsame := (fillSize_size hreads.isSome (linked sgml links) n).trans hfill
      refine ⟨outside || read, ?_⟩
      simp [td, column, advance, resultOf, filled, hlinks, hcomments, hsame, hnot, Except.map, bind,
        Except.bind, pure, Except.pure]

end

end RutorSearchProvider
end CuteTorrent
