import CuteTorrent.KickassSearchProvider
import CuteTorrent.Library.Runs
import CuteTorrent.SearchReplies

/-! `SearchEngine`: searches, what the providers answer and the engine that is shown, in any
order. -/
namespace CuteTorrent
open SearchItemsStorrage Markup
open ExtratorrentSearchProvider (rowsOf resultsOf exists_rounds_replyReady Engine_of_mem_resultsOf)

/-- `new` gives one address after another. -/
structure SearchEngine where
  m_result : SearchItemsStorrage
  allocated : Nat

namespace SearchEngine

/-- `replyReady` stands for the reply of any provider, with what it sends as `SearchReady`;
the reply may still belong to an earlier search. -/
inductive Event where
  | DoSerach
  | replyReady (sent : Option (List SearchResult))
  | setFilter (engineName : QString)

def initial : SearchEngine := ⟨.initial, 0⟩

def pointers (address : Nat) : List SearchResult → List ResultPointer
  | [] => []
  | r :: result => ⟨address, r⟩ :: pointers (address + 1) result

def since (arrived : List SearchResult) : Event → List SearchResult
  | .DoSerach => []
  | .replyReady sent => arrived ++ sent.getD []
  | .setFilter _ => arrived

def arrived (events : List Event) : List SearchResult := events.foldl since []

def sentBy : Event → List SearchResult
  | .replyReady sent => sent.getD []
  | _ => []

theorem map_result_pointers (address : Nat) (result : List SearchResult) :
    (pointers address result).map ResultPointer.result = result := by
  induction result generalizing address with
  | nil => rfl
  | cons r result ih => rw [pointers, List.map_cons, ih]

theorem address_of_mem_pointers {address : Nat} {result : List SearchResult} {item : ResultPointer}
    (h : item ∈ pointers address result) : address ≤ item.address ∧ item.address < address + result.length := by
  induction result generalizing address with
  | nil => cases h
  | cons r result ih =>
    rw [List.length_cons]
    rcases List.mem_cons.mp h with rfl | hmem
    · exact ⟨Nat.le_refl _, by dsimp only; omega⟩
    · have hlater := ih hmem
      omega

theorem nodup_pointers (address : Nat) (result : List SearchResult) : (pointers address result).Nodup := by
  induction result generalizing address with
  | nil => exact List.nodup_nil
  | cons r result ih =>
    refine List.nodup_cons.mpr ⟨fun hmem => ?_, ih (address + 1)⟩
    have hlater : address + 1 ≤ address := (address_of_mem_pointers hmem).1
    omega

theorem foldl_since {events : List Event} (h : .DoSerach ∉ events) (rs : List SearchResult) :
    events.foldl since rs = rs ++ events.flatMap sentBy := by
  induction events generalizing rs with
  | nil => exact (List.append_nil rs).symm
  | cons event events ih =>
    rw [List.mem_cons, not_or] at h
    rw [List.foldl_cons, ih h.2, List.flatMap_cons, ← List.append_assoc]
    congr 1
    cases event with
    | DoSerach => exact absurd rfl h.1
    | replyReady sent => rfl
    | setFilter engineName => exact (List.append_nil rs).symm

section
variable [QtTables] {e : SearchEngine} {rs : List SearchResult}

def OnSearchReady (e : SearchEngine) (result : List SearchResult) : SearchEngine :=
  ⟨e.m_result.appendList (pointers e.allocated result), e.allocated + result.length⟩

def step (e : SearchEngine) : Event → SearchEngine
  | .DoSerach => { e with m_result := e.m_result.clear }
  | .replyReady none => e
  | .replyReady (some result) => e.OnSearchReady result
  | .setFilter engineName => { e with m_result := e.m_result.setFilter engineName }

def shown (engineName : QString) (rs : List SearchResult) : List SearchResult :=
  if engineName = [] then rs else rs.filter fun r => equalsCaseInsensitive r.Engine engineName

/-- No address is given again. -/
structure Holds (e : SearchEngine) (rs : List SearchResult) : Prop where
  results : e.m_result.m_items.map ResultPointer.result = rs
  fresh : ∀ item ∈ e.m_result.m_items, item.address < e.allocated

theorem m_items_appendList {s : SearchItemsStorrage} {items : List ResultPointer}
    (h : (s.m_items ++ items).Nodup) : (s.appendList items).m_items = s.m_items ++ items := by
  induction items generalizing s with
  | nil => exact (List.append_nil _).symm
  | cons item items ih =>
    have hnew : item ∉ s.m_items := fun hmem =>
      (List.disjoint_of_nodup_append h) hmem List.mem_cons_self
    have happend : (s.append item).m_items = s.m_items ++ [item] := by rw [append, dif_neg hnew]
    have hcons : s.appendList (item :: items) = (s.append item).appendList items := rfl
    have hlist : (s.append item).m_items ++ items = s.m_items ++ item :: items := by
      rw [happend, List.append_assoc, List.singleton_append]
    rw [hcons, ih (hlist ▸ h), hlist]

theorem Holds.OnSearchReady (h : e.Holds rs) (result : List SearchResult) :
    (e.OnSearchReady result).Holds (rs ++ result) := by
  have hnodup : (e.m_result.m_items ++ pointers e.allocated result).Nodup := by
    refine e.m_result.items_nodup.append (nodup_pointers _ _) fun item hold hnew => ?_
    have hlt := h.fresh item hold
    have hle := (address_of_mem_pointers hnew).1
    omega
  have hitems : (e.OnSearchReady result).m_result.m_items =
      e.m_result.m_items ++ pointers e.allocated result := m_items_appendList hnodup
  refine ⟨?_, fun item hitem => ?_⟩
  · rw [hitems, List.map_append, map_result_pointers, h.results]
  · rw [hitems] at hitem
    rcases List.mem_append.mp hitem with hold | hnew
    · exact Nat.lt_add_right _ (h.fresh item hold)
    · exact (address_of_mem_pointers hnew).2

theorem Holds.step (h : e.Holds rs) (event : Event) : (e.step event).Holds (since rs event) := by
  cases event with
  | DoSerach => exact ⟨rfl, fun _ hitem => absurd hitem List.not_mem_nil⟩
  | replyReady sent =>
    cases sent with
    | none =>
      have hsame : since rs (.replyReady none) = rs := List.append_nil rs
      rw [hsame]
      exact h
    | some result => exact h.OnSearchReady result
  | setFilter engineName =>
    have hitems : (e.m_result.setFilter engineName).m_items = e.m_result.m_items := by
      rw [setFilter, filterData]
      split_ifs
      · rfl
      · rfl
    exact ⟨hitems.symm ▸ h.results, hitems.symm ▸ h.fresh⟩

theorem holds_run (h : e.Holds rs) (events : List Event) :
    (Runs.final SearchEngine.step e events).Holds (events.foldl since rs) := by
  induction events generalizing e rs with
  | nil => exact h
  | cons event events ih => exact ih (h.step event)

theorem holds_initial (events : List Event) :
    (Runs.final SearchEngine.step initial events).Holds (arrived events) :=
  holds_run ⟨rfl, fun _ hitem => absurd hitem List.not_mem_nil⟩ events

/-- In every run the results held are those that came since the last search, each once and
in the order in which they came. -/
theorem results_run (events : List Event) :
    (Runs.final SearchEngine.step initial events).m_result.m_items.map ResultPointer.result = arrived events :=
  (holds_initial events).results

theorem shown_setFilter (h : e.Holds rs) (engineName : QString) :
    (e.step (.setFilter engineName)).m_result.m_filteredItems.map ResultPointer.result = shown engineName rs := by
  have hview : (e.m_result.setFilter engineName).m_filteredItems = view engineName e.m_result.m_items := by
    rw [setFilter, filterData, view]
    dsimp only
    split_ifs
    · rfl
    · exact foldl_append_if (isOf engineName) e.m_result.m_items []
  rw [SearchEngine.step, hview, view, shown, ← h.results]
  split_ifs
  · rfl
  · rw [List.filter_map]
    rfl

/-- Whatever has happened before, once an engine is chosen its results since the last
search are shown, and no others. -/
theorem shown_run (events : List Event) (engineName : QString) :
    (Runs.final SearchEngine.step initial (events ++ [.setFilter engineName])).m_result.m_filteredItems.map
      ResultPointer.result = shown engineName (arrived events) := by
  rw [Runs.final, List.foldl_append]
  exact shown_setFilter (holds_initial events) engineName

def Others (engineName : QString) (events : List Event) : Prop :=
  .DoSerach ∉ events ∧ ∀ event ∈ events, ∀ r ∈ sentBy event, equalsCaseInsensitive r.Engine engineName = false

theorem Others.shown_eq_nil {engineName : QString} {events : List Event} (h : Others engineName events)
    (hname : engineName ≠ []) : shown engineName (events.flatMap sentBy) = [] := by
  rw [shown, if_neg hname, List.filter_eq_nil_iff]
  intro r hr
  obtain ⟨event, hevent, hsent⟩ := List.mem_flatMap.mp hr
  rw [h.2 event hevent r hsent]
  exact Bool.false_ne_true

theorem others_nil {engineName : QString} : Others engineName [] :=
  ⟨List.not_mem_nil, fun _ hevent => absurd hevent List.not_mem_nil⟩

theorem shown_append (engineName : QString) (rs rs' : List SearchResult) :
    shown engineName (rs ++ rs') = shown engineName rs ++ shown engineName rs' := by
  rw [shown, shown, shown]
  split_ifs
  · rfl
  · exact List.filter_append _ _

theorem shown_of_engine {engineName : QString} {results : List SearchResult}
    (h : ∀ r ∈ results, r.Engine = engineName) : shown engineName results = results := by
  rw [shown]
  split_ifs
  · rfl
  · rw [List.filter_eq_self]
    intro r hr
    rw [h r hr]
    exact decide_eq_true rfl

theorem shown_reply {engineName : QString} {results : List SearchResult} (hname : engineName ≠ [])
    (hengine : ∀ r ∈ results, r.Engine = engineName) (before : List Event) {replies later : List Event}
    (hreplies : Others engineName replies) (hlater : Others engineName later) :
    (Runs.final SearchEngine.step initial (before ++ .DoSerach :: (replies ++
      .replyReady (some results) :: later) ++
        [.setFilter engineName])).m_result.m_filteredItems.map ResultPointer.result = results := by
  rw [Runs.final, List.foldl_append]
  refine (shown_setFilter (holds_initial _) _).trans ?_
  rw [arrived, List.foldl_append, List.foldl_cons, List.foldl_append, List.foldl_cons,
    foldl_since hlater.1, foldl_since hreplies.1, since, since, List.nil_append, Option.getD_some,
    shown_append, shown_append, hreplies.shown_eq_nil hname, hlater.shown_eq_nil hname,
    shown_of_engine hengine, List.nil_append, List.append_nil]

/-- The rows of a page that Extratorrent sends in reply to the last search are shown, however
the other providers reply. -/
theorem extratorrent_page_shown [QtConversions] (hascii : LowersAscii)
    (hspace : ∀ c, QtTables.caseFold c = QtTables.caseFold ' ' → c = ' ') (p : Platform) {parent text : QString}
    {n : Node} {ns : List Node} (h : ∀ m ∈ n :: ns, m.Readable parent ∧ m.isVoid = false) (hfirst : n.text = [])
    (htext : '<' ∉ text) (iEnd : Int) (hrows : ∀ row ∈ rowsOf (n :: ns), ExtratorrentSearchProvider.Row row)
    (hsome : rowsOf (n :: ns) ≠ []) (before : List Event) {replies later : List Event}
    (hreplies : Others ExtratorrentSearchProvider.Name replies)
    (hlater : Others ExtratorrentSearchProvider.Name later) :
    ∃ needed, ∀ rounds > needed, ∃ sent,
      ExtratorrentSearchProvider.replyReady p rounds iEnd true (pages (n :: ns) ++ text) =
        .ok (some (sent.map some)) ∧
      (Runs.final SearchEngine.step initial (before ++ .DoSerach :: (replies ++
        .replyReady (some sent) :: later) ++
          [.setFilter ExtratorrentSearchProvider.Name])).m_result.m_filteredItems.map ResultPointer.result =
        resultsOf p (n :: ns) := by
  obtain ⟨needed, hreply⟩ := exists_rounds_replyReady hascii hspace p h hfirst htext iEnd hrows
  refine ⟨needed, fun rounds hrounds => ⟨resultsOf p (n :: ns), ?_, ?_⟩⟩
  · rw [hreply rounds hrounds, if_neg hsome, resultsOf, List.map_map]
    rfl
  · exact shown_reply (by decide) (Engine_of_mem_resultsOf hrows) before hreplies hlater

end

section sample
local instance : QtTables := TorrentStorrage.asciiCase
local instance : QtConversions := SearchPage.wholeNumbers
local instance : QtDouble := ⟨.string⟩

def sampleInfo : QVariant :=
  .map [("leechs".toList, .int 2), ("link".toList, .string "d".toList), ("seeds".toList, .int 5),
    ("size".toList, .int 5000000000), ("title".toList, .string "a \"ф\"".toList),
    ("torrentLink".toList, .string "t".toList), ("votes".toList, .int 1)]

def sampleResult : SearchResult :=
  ⟨"a \"ф\"".toList, "t".toList, "d".toList, KickassSearchProvider.Name, 2, 5, 5000000000⟩

theorem offers_sampleInfo : KickassSearchProvider.Offers sampleInfo sampleResult :=
  ⟨rfl, rfl, rfl, rfl, rfl, rfl, rfl, by decide, by decide, by decide⟩

/-- An offer as the server writes it, without blanks and with its own order and escapes. -/
def sampleOffer : String :=
  "\x7b\"title\":\"a \\\"\\u0444\\\"\",\"link\":\"d\",\"torrentLink\":\"t\",\"size\":5000000000," ++
    "\"seeds\":5,\"leechs\":2,\"votes\":1\x7d"

def samplePage : QString :=
  ("\x7b\"title\":\"page\",\"list\":[" ++ sampleOffer ++ ",\n" ++ sampleOffer ++ "]\x7d").toList

set_option maxRecDepth 20000 in
theorem parse_samplePage : Json.parse samplePage =
    (.map [("list".toList, .list [sampleInfo, sampleInfo]), ("title".toList, .string "page".toList)], true) := by
  rfl

theorem extratorrent_page_shown_alone : ∃ needed, ∀ rounds > needed, ∃ sent,
    ExtratorrentSearchProvider.replyReady .unix rounds 0 true
        (pages [ExtratorrentSearchProvider.sampleTable] ++ "\n".toList) = .ok (some (sent.map some)) ∧
      (Runs.final SearchEngine.step initial ([.replyReady (some [sampleResult])] ++ .DoSerach ::
        ([] ++ .replyReady (some sent) :: []) ++
          [.setFilter ExtratorrentSearchProvider.Name])).m_result.m_filteredItems.map ResultPointer.result =
        resultsOf .unix [ExtratorrentSearchProvider.sampleTable] := by
  have hrows : ∀ row ∈ rowsOf [ExtratorrentSearchProvider.sampleTable], ExtratorrentSearchProvider.Row row := by
    rw [ExtratorrentSearchProvider.rowsOf_sampleTable]
    exact List.forall_mem_singleton.mpr ExtratorrentSearchProvider.row_sampleRow
  refine extratorrent_page_shown (fun _ _ => rfl) SearchPage.ascii_space .unix
    (List.forall_mem_singleton.mpr ⟨ExtratorrentSearchProvider.readable_sampleTable, rfl⟩) rfl
    (show '<' ∉ "\n".toList by decide) 0 hrows ?_ _ others_nil others_nil
  rw [ExtratorrentSearchProvider.rowsOf_sampleTable]
  exact List.cons_ne_nil _ _

end sample
end SearchEngine
end CuteTorrent
