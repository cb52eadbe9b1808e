import CuteTorrent.SearchPage

/-! `ExtratorrentSearchProvider::ParseTableBody`: seven columns to a result. -/
namespace CuteTorrent
namespace ExtratorrentSearchProvider
open SearchPage

def Name : QString := "Extratorrent".toList

def Url : QString := "http://extratorrent.cc".toList

section
variable [QtTables]

def firstLink (cell : RoseTree QSgmlTag) : Option (RoseTree QSgmlTag) := cell.children.find? isLink

def href (tag : RoseTree QSgmlTag) : QString := tag.label.getAttributeValue "href".toList

def created (cell : RoseTree QSgmlTag) : Option SearchResult :=
  (firstLink cell).map fun link => { newSearchResult with TorrentFileUrl := Url ++ href link }

def fillName (sgml : QSgml) (cell : RoseTree QSgmlTag) (r : SearchResult) : SearchResult :=
  if cell.label.checkAttribute "class".toList "tli".toList then
    match firstLink cell with
    | some link => { r with Name := sgml.getInnerText link.label, TorrentDescUrl := Url ++ href link }
    | none => r
  else r

/-- What a cell does to the column, and to whether a result is being filled. -/
def next : Nat × Bool → RoseTree QSgmlTag → Nat × Bool
  | (0, held), cell => (1, (firstLink cell).isSome || held)
  | (6, _), _ => (0, false)
  | (n, held), _ => (if n + 1 ≥ 7 then 0 else n + 1, held)

theorem row_final (c : RoseTree QSgmlTag) (cs : List (RoseTree QSgmlTag)) (h : 6 ≤ cs.length) :
    Runs.final next (0, false) (c :: cs.take 6) = (0, false) := by
  match cs, h with
  | _ :: _ :: _ :: _ :: _ :: _ :: _, _ => rfl

variable [QtConversions] (p : Platform) (sgml : QSgml)

def fillSeeders (cell : RoseTree QSgmlTag) (r : SearchResult) : SearchResult :=
  { r with seeders := (toLong p (sgml.getInnerText cell.label)).getD (-1) }

def fillLeechers (cell : RoseTree QSgmlTag) (r : SearchResult) : SearchResult :=
  { r with leechers := (toLong p (sgml.getInnerText cell.label)).getD (-1) }

def column (s : ParseState) (pCurrent : RoseTree QSgmlTag) : Except Fault ParseState :=
  match s.tdCounter with
  | 0 => .ok { s with pCurrentSearchResult := (created pCurrent).or s.pCurrentSearchResult }
  | 2 =>
    .ok { s with pCurrentSearchResult := s.pCurrentSearchResult.map (fillName sgml pCurrent) }
  | 3 =>
    match s.pCurrentSearchResult with
    | none => .ok s
    | some r =>
      match fillSize (sizeHtmlStr sgml pCurrent) r with
      | .error f => .error f
      | .ok (r, outside) =>
        .ok { s with pCurrentSearchResult := some r, outside := s.outside || outside }
  | 4 =>
    .ok { s with pCurrentSearchResult := s.pCurrentSearchResult.map (fillSeeders p sgml pCurrent) }
  | 5 =>
    .ok { s with pCurrentSearchResult := s.pCurrentSearchResult.map (fillLeechers p sgml pCurrent) }
  | 6 =>
    match s.pCurrentSearchResult with
    | none => .error .nullPointer
    | some r =>
      .ok { s with
        searchResults := s.searchResults ++ [some { r with Engine := Name }]
        pCurrentSearchResult := none }
  | _ => .ok s

def advance (s : ParseState) : ParseState :=
  { s with tdCounter := if s.tdCounter + 1 ≥ 7 then 0 else s.tdCounter + 1 }

def td (s : ParseState) (pCurrent : RoseTree QSgmlTag) : Except Fault ParseState :=
  (column p sgml s pCurrent).map advance

def ParseTableBody (tableBody : List (RoseTree QSgmlTag)) : Except Fault ParseState :=
  traverse (td p sgml) tableBody

/-! ### What a cell needs -/

def Allowed : Nat × Bool → RoseTree QSgmlTag → Prop
  | (3, held), cell => held = true → UnitStands (sizeHtmlStr sgml cell)
  | (6, held), _ => held = true
  | _, _ => True

theorem td_forth (s : ParseState) (cell : RoseTree QSgmlTag) (hs : Sound Name s)
    (h : Allowed sgml (place s) cell) :
    ∃ s', td p sgml s cell = .ok s' ∧ Sound Name s' ∧ place s' = next (place s) cell := by
  obtain ⟨n, results, current, outside⟩ := s
  match n with
  | 0 => exact ⟨_, rfl, hs, by simp [place, next, advance, created]⟩
  | 1 => exact ⟨_, rfl, hs, rfl⟩
  | 2 => exact ⟨_, rfl, hs, by simp [place, next, advance]⟩
  | 3 =>
    cases current with
    | none => exact ⟨_, rfl, hs, rfl⟩
    | some r =>
      obtain ⟨r', hr'⟩ := (fillSize_ok_iff (sizeHtmlStr sgml cell) r).mpr (h rfl)
      refine ⟨⟨4, results, some r', outside || false⟩, ?_, ⟨?_, hs.2⟩, rfl⟩
      · simp only [td, column, hr']
        rfl
      · simpa using hs.1
  | 4 => exact ⟨_, rfl, hs, by simp [place, next, advance]⟩
  | 5 => exact ⟨_, rfl, hs, by simp [place, next, advance]⟩
  | 6 =>
    cases current with
    | none => exact absurd h Bool.false_ne_true
    | some r => exact ⟨_, rfl, hs.emit r 0, rfl⟩
  | _ + 7 => exact ⟨_, rfl, hs, rfl⟩

theorem td_back (s : ParseState) (cell : RoseTree QSgmlTag) (s' : ParseState)
    (h : td p sgml s cell = .ok s') (hs' : Sound Name s') :
    Sound Name s ∧ Allowed sgml (place s) cell := by
  obtain ⟨n, results, current, outside⟩ := s
  match n with
  | 0 | 1 | 2 | 4 | 5 | _ + 7 =>
    cases h
    exact ⟨hs', trivial⟩
  | 3 =>
    cases current with
    | none =>
      cases h
      exact ⟨hs', fun hno => absurd hno Bool.false_ne_true⟩
    | some r =>
      simp only [td, column] at h
      cases hfill : fillSize (sizeHtmlStr sgml cell) r with
      | error f =>
        rw [hfill] at h
        cases h
      | ok filled =>
        rw [hfill] at h
        cases h
        obtain ⟨houtside, hunit⟩ := unitStands_of_fillSize hfill hs'.1
        exact ⟨⟨houtside, hs'.2⟩, fun _ => hunit⟩
  | 6 =>
    cases current with
    | none => cases h
    | some r =>
      cases h
      exact ⟨⟨hs'.1, fun e he => hs'.2 e (List.mem_append_left _ he)⟩, rfl⟩

/-- Of seven cells the first has a link; and where it has one, the fourth is no number
with nothing behind the space. -/
def RowAllowed (row : List (RoseTree QSgmlTag)) : Prop :=
  (7 ≤ row.length → ∀ cell ∈ row.head?, (firstLink cell).isSome = true) ∧
    ∀ cell ∈ row.head?, (firstLink cell).isSome = true →
      ∀ size ∈ row[3]?, UnitStands (sizeHtmlStr sgml size)

theorem row_allowed_iff (c : RoseTree QSgmlTag) (cs : List (RoseTree QSgmlTag)) :
    Runs.Along next (Allowed sgml) (0, false) (c :: cs.take 6) ↔
      RowAllowed sgml (c :: cs.take 6) := by
  match cs with
  | [] => simp [Runs.Along, Allowed, RowAllowed]
  | [_] => simp [Runs.Along, Allowed, RowAllowed, next]
  | [_, _] => simp [Runs.Along, Allowed, RowAllowed, next]
  | [_, _, _] | [_, _, _, _] | [_, _, _, _, _] => simp [Runs.Along, Allowed, RowAllowed, next]
  | _ :: _ :: _ :: _ :: _ :: _ :: _ => simp [Runs.Along, Allowed, RowAllowed, next, and_comm]

theorem safeParse_iff (tableBody : List (RoseTree QSgmlTag)) :
    SafeParse Name (ParseTableBody p sgml tableBody) ↔
      ∀ row ∈ cutRows (fun _ => 6) (cellsOf tableBody), RowAllowed sgml row := by
  rw [SafeParse, ParseTableBody, traverse_eq]
  rw [Runs.foldlM_good_iff_along (td_forth p sgml) (td_back p sgml) (sound_initial Name)]
  exact along_cutRows (row_allowed_iff sgml) row_final (cellsOf tableBody)

/-! ### What a row gives -/

def resultOf (cells : List (RoseTree QSgmlTag)) : SearchResult :=
  match cells with
  | [torrent, _, name, size, seeders, leechers, _] =>
    { fillLeechers p sgml leechers (fillSeeders p sgml seeders (withSize (sizeHtmlStr sgml size)
        (fillName sgml name ((created torrent).getD newSearchResult)))) with Engine := Name }
  | _ => newSearchResult

structure WellFormed (row : RoseTree QSgmlTag) : Prop where
  seven : (rowCells row).length = 7
  linked : ∀ cell ∈ (rowCells row).head?, (firstLink cell).isSome = true

theorem row_result (hspace : ∀ c, QtTables.caseFold c = QtTables.caseFold ' ' → c = ' ')
    {row : RoseTree QSgmlTag} (h : WellFormed row) (results : List (Option SearchResult))
    (outside : Bool) : ∃ outside', (rowCells row).foldlM (td p sgml) ⟨0, results, none, outside⟩ =
      .ok ⟨0, results ++ [some (resultOf p sgml (rowCells row))], none, outside'⟩ := by
  obtain ⟨hseven, hlinked⟩ := h
  generalize rowCells row = cells at hseven hlinked ⊢
  match cells, hseven with
  | [torrent, category, name, size, seeders, leechers, last], _ =>
    have hcreated : (created torrent).isSome = true := by simpa [created] using hlinked torrent rfl
    obtain ⟨r, hr⟩ := Option.isSome_iff_exists.mp hcreated
    obtain ⟨read, hfill⟩ := fillSize_eq_withSize (sizeHtmlStr sgml size)
      (fun hsize => second_part_of_space (space_mem_of_hasUnit hspace (hasUnit_of_sizeNumber hsize)))
      (fillName sgml name r)
    refine ⟨outside || read, ?_⟩
    simp [td, column, advance, resultOf, hr, hfill, Except.map, bind, Except.bind, pure, Except.pure]

end

end ExtratorrentSearchProvider
end CuteTorrent
