import CuteTorrent.Restart

/-! `TorrentManager::onClose`: it asks the session for the resume data of its
torrents and waits until as many replies have come. -/
namespace CuteTorrent
namespace TorrentManager
open SaveFile (Outcome Save contentAfter)

/-- A call of `save_resume_data` that its alert will answer; `own` is set for the
calls of `onClose`. The alert itself shows only the torrent. -/
structure ResumeRequest where
  torrent : Sha1Hash
  own : Bool
deriving DecidableEq

def ownCalls (torrents : List Sha1Hash) : List ResumeRequest := torrents.map (⟨·, true⟩)

def earlierCalls (torrents : List Sha1Hash) : List ResumeRequest := torrents.map (⟨·, false⟩)

@[simp] theorem length_ownCalls (torrents : List Sha1Hash) :
    (ownCalls torrents).length = torrents.length := List.length_map _

@[simp] theorem mem_ownCalls {torrents : List Sha1Hash} {h : Sha1Hash} :
    ⟨h, true⟩ ∈ ownCalls torrents ↔ h ∈ torrents := by
  simp [ownCalls]

inductive Alert where
  | torrentPaused
  | saveResumeDataFailed (request : ResumeRequest)
  | saveResumeData (request : ResumeRequest) (resumeData : Option ResumeEntry)
  | other

def Alert.request : Alert → Option ResumeRequest
  | saveResumeDataFailed request => some request
  | saveResumeData request _ => some request
  | torrentPaused | other => none

structure StatusToSave where
  torrent : Sha1Hash
  isValid : Bool
  hasMetadata : Bool
  needSaveResume : Bool

def requested (statuses : List StatusToSave) : List Sha1Hash :=
  (statuses.filter fun st => st.isValid && st.hasMetadata && st.needSaveResume).map
    StatusToSave.torrent

theorem requested_nodup {statuses : List StatusToSave}
    (h : (statuses.map StatusToSave.torrent).Nodup) : (requested statuses).Nodup :=
  h.sublist (List.filter_sublist.map _)

section
variable [DataFolder] (p : Platform) (system : Nat → ∀ v, Outcome v)

/-- The wait loop: `consumed` are the alerts it has taken from the queue, `saves` the
calls of `save_file` it has made. -/
structure Closing where
  world : World
  outstanding : Int
  consumed : List Alert
  saves : List (Sha1Hash × Save)

def Closing.savesOf (s : Closing) (h : Sha1Hash) : List Save :=
  (s.saves.filter fun save => decide (save.1 = h)).map Prod.snd

/-- `system` is what becomes of a save behind so many alerts. -/
def consume (s : Closing) (a : Alert) : Closing :=
  match a with
  | .torrentPaused => { s with consumed := s.consumed ++ [a] }
  | .saveResumeDataFailed _ =>
    { s with outstanding := s.outstanding - 1, consumed := s.consumed ++ [a] }
  | .saveResumeData _ none =>
    { s with outstanding := s.outstanding - 1, consumed := s.consumed ++ [a] }
  | .saveResumeData request (some rd) =>
    let v := bytesToSave p s.world request.torrent rd
    { world := saveResumeData p s.world request.torrent rd (system s.consumed.length v)
      outstanding := s.outstanding - 1
      consumed := s.consumed ++ [a]
      saves := s.saves ++ [(request.torrent, ⟨v, system s.consumed.length v⟩)] }
  | .other => { s with consumed := s.consumed ++ [a] }

/-- `pop_alerts` takes all that is there; without a result the loop still waits. -/
def waitLoop : Closing → List (List Alert) → Option Closing
  | s, [] => if s.outstanding > 0 then none else some s
  | s, alerts :: later =>
    if s.outstanding > 0 then waitLoop (alerts.foldl (consume p system) s) later else some s

def onClose (w : World) (statuses : List StatusToSave) (deliveries : List (List Alert)) :
    Option Closing :=
  waitLoop p system ⟨w, (requested statuses).length, [], []⟩ deliveries

/-- Every call is answered once, whatever else the session posts. -/
def Answers (earlier own : List Sha1Hash) (deliveries : List (List Alert)) : Prop :=
  (deliveries.flatten.filterMap Alert.request).Perm
    (ownCalls own ++ earlierCalls earlier)

/-- The reply to the call of `onClose` for the torrent was taken from the queue; if it
brought resume data, `save_file` was given the entry, and the file holds what the
saves for the torrent have left of it. -/
def Answered (w : World) (s : Closing) (h : Sha1Hash) : Prop :=
  ∃ a ∈ s.consumed, a.request = some ⟨h, true⟩ ∧
    ∀ rd, a = .saveResumeData ⟨h, true⟩ (some rd) →
      (∃ save ∈ s.savesOf h, save.v = bytesToSave p w h rd) ∧
      s.world.disk.read (hashFile h .resume) =
        (s.savesOf h).foldl contentAfter (w.disk.read (hashFile h .resume))

theorem consumed_consume (s : Closing) (a : Alert) :
    (consume p system s a).consumed = s.consumed ++ [a] := by
  rcases a with _ | _ | ⟨request, _ | rd⟩ | _ <;> rfl

theorem outstanding_consume (s : Closing) (a : Alert) :
    (consume p system s a).outstanding = s.outstanding - ([a].filterMap Alert.request).length := by
  rcases a with _ | request | ⟨request, _ | rd⟩ | _ <;>
    simp [consume, Alert.request, List.filterMap_cons]

theorem consumed_foldl (alerts : List Alert) (s : Closing) :
    (alerts.foldl (consume p system) s).consumed = s.consumed ++ alerts := by
  induction alerts generalizing s with
  | nil => simp
  | cons a alerts ih => simp [ih, consumed_consume]

theorem outstanding_foldl (alerts : List Alert) (s : Closing) :
    (alerts.foldl (consume p system) s).outstanding =
      s.outstanding - (alerts.filterMap Alert.request).length := by
  induction alerts generalizing s with
  | nil => simp
  | cons a alerts ih =>
    have hcons : (a :: alerts).filterMap Alert.request =
        [a].filterMap Alert.request ++ alerts.filterMap Alert.request := by
      rw [← List.filterMap_append, List.singleton_append]
    rw [List.foldl_cons, ih, outstanding_consume, hcons, List.length_append]
    omega

theorem waitLoop_some {s s' : Closing} {deliveries : List (List Alert)}
    (h : waitLoop p system s deliveries = some s') :
    ∃ taken later, deliveries = taken ++ later ∧ s' = taken.flatten.foldl (consume p system) s ∧
      s'.outstanding ≤ 0 := by
  induction deliveries generalizing s with
  | nil =>
    rw [waitLoop] at h
    split_ifs at h with hout
    obtain rfl := Option.some.inj h
    exact ⟨[], [], rfl, rfl, by omega⟩
  | cons alerts later ih =>
    rw [waitLoop] at h
    split_ifs at h with hout
    · obtain ⟨taken, rest, hrest, hs', hle⟩ := ih h
      refine ⟨alerts :: taken, rest, by rw [hrest]; rfl, ?_, hle⟩
      rw [hs', List.flatten_cons, List.foldl_append]
    · obtain rfl := Option.some.inj h
      exact ⟨[], alerts :: later, rfl, rfl, by omega⟩

theorem waitLoop_none {s : Closing} {deliveries : List (List Alert)}
    (h : waitLoop p system s deliveries = none) :
    0 < (deliveries.flatten.foldl (consume p system) s).outstanding := by
  induction deliveries generalizing s with
  | nil =>
    rw [waitLoop] at h
    split_ifs at h with hout
    exact hout
  | cons alerts later ih =>
    rw [waitLoop] at h
    split_ifs at h with hout
    have hlast := ih h
    rwa [List.flatten_cons, List.foldl_append]

/-- What the loop keeps: store and session stay, every resume file holds what the saves
for its torrent have left, and resume data that has come was given to one of them. -/
structure Saving (w : World) (s : Closing) : Prop where
  session_eq : s.world.session = w.session
  storrage_eq : s.world.storrage = w.storrage
  content : ∀ h, s.world.disk.read (hashFile h .resume) =
    (s.savesOf h).foldl contentAfter (w.disk.read (hashFile h .resume))
  saved : ∀ h own rd, .saveResumeData ⟨h, own⟩ (some rd) ∈ s.consumed →
    ∃ save ∈ s.savesOf h, save.v = bytesToSave p w h rd

theorem bytesToSave_congr {w w' : World} (hsession : w'.session = w.session)
    (hstorrage : w'.storrage = w.storrage) (h : Sha1Hash) (rd : ResumeEntry) :
    bytesToSave p w' h rd = bytesToSave p w h rd := by
  rw [bytesToSave, bytesToSave, entryToSave, entryToSave, hsession, hstorrage]

theorem saving_of_same_world {w : World} {s s' : Closing} (h : Saving p w s) {a : Alert}
    (hworld : s'.world = s.world) (hsaves : s'.saves = s.saves)
    (hconsumed : s'.consumed = s.consumed ++ [a])
    (ha : ∀ request rd, a ≠ .saveResumeData request (some rd)) : Saving p w s' where
  session_eq := by rw [hworld, h.session_eq]
  storrage_eq := by rw [hworld, h.storrage_eq]
  content g := by rw [hworld, Closing.savesOf, hsaves, ← Closing.savesOf, h.content]
  saved g own rd hmem := by
    rw [hconsumed] at hmem
    rw [Closing.savesOf, hsaves, ← Closing.savesOf]
    cases List.mem_append.mp hmem with
    | inl hmem => exact h.saved g own rd hmem
    | inr hmem => exact absurd (List.mem_singleton.mp hmem).symm (ha _ _)

theorem saving_save {w : World} {s : Closing} (h : Saving p w s) (request : ResumeRequest)
    (rd : ResumeEntry) : Saving p w (consume p system s (.saveResumeData request (some rd))) := by
  obtain ⟨g, own⟩ := request
  have hbytes := bytesToSave_congr p h.session_eq h.storrage_eq g rd
  have hsaves : ∀ k, (consume p system s (.saveResumeData ⟨g, own⟩ (some rd))).savesOf k =
      s.savesOf k ++ if g = k then
        [⟨bytesToSave p s.world g rd, system s.consumed.length (bytesToSave p s.world g rd)⟩] else [] := by
    intro k
    simp only [Closing.savesOf, consume, List.filter_append, List.map_append]
    by_cases hk : g = k <;> simp [hk]
  refine ⟨h.session_eq, h.storrage_eq, fun k => ?_, fun k own' rd' hmem => ?_⟩
  · rw [hsaves, List.foldl_append, ← h.content k]
    simp only [consume, saveResumeData, read_saveFile, DataFolder.resolve_hashFile]
    by_cases hk : g = k
    · rw [if_pos hk, if_pos (by rw [hk]), hk]
      rfl
    · have hne : hashFile k .resume ≠ hashFile g .resume :=
        fun he => hk (hashFile_injective he).1.symm
      rw [if_neg hk, if_neg hne]
      rfl
  · rw [hsaves]
    rw [consumed_consume] at hmem
    cases List.mem_append.mp hmem with
    | inl hmem =>
      obtain ⟨save, hsave, hv⟩ := h.saved k own' rd' hmem
      exact ⟨save, List.mem_append_left _ hsave, hv⟩
    | inr hmem =>
      cases List.mem_singleton.mp hmem
      exact ⟨_, List.mem_append_right _ (by rw [if_pos rfl]; exact List.mem_singleton_self _), hbytes⟩

theorem saving_consume {w : World} {s : Closing} (h : Saving p w s) (a : Alert) :
    Saving p w (consume p system s a) := by
  rcases a with _ | request | ⟨request, _ | rd⟩ | _
  case saveResumeData.some => exact saving_save p system h request rd
  all_goals exact saving_of_same_world p h rfl rfl rfl (by simp)

theorem saving_foldl {w : World} (alerts : List Alert) {s : Closing} (h : Saving p w s) :
    Saving p w (alerts.foldl (consume p system) s) := by
  induction alerts generalizing s with
  | nil => exact h
  | cons a alerts ih => exact ih (saving_consume p system h a)

theorem answered_of_consumed {w : World} {s : Closing} (h : Saving p w s) {a : Alert}
    {g : Sha1Hash} (ha : a ∈ s.consumed) (hreq : a.request = some ⟨g, true⟩) :
    Answered p w s g := by
  refine ⟨a, ha, hreq, fun rd hrd => ⟨?_, h.content g⟩⟩
  exact h.saved g true rd (hrd ▸ ha)

theorem onClose_of_no_earlier (w : World) (statuses : List StatusToSave)
    {deliveries : List (List Alert)} (h : Answers [] (requested statuses) deliveries) :
    ∃ s, onClose p system w statuses deliveries = some s ∧
      ∀ g ∈ requested statuses, Answered p w s g := by
  have hlen := h.length_eq
  rw [earlierCalls, List.map_nil, List.append_nil, length_ownCalls] at hlen
  cases hrun : onClose p system w statuses deliveries with
  | none =>
    have hout := waitLoop_none p system hrun
    rw [outstanding_foldl, hlen] at hout
    exact absurd hout (by simp)
  | some s =>
    refine ⟨s, rfl, fun g hg => ?_⟩
    obtain ⟨taken, later, hsplit, hs, hle⟩ := waitLoop_some p system hrun
    have hsaving : Saving p w s := by
      rw [hs]
      exact saving_foldl p system _
        ⟨rfl, rfl, fun _ => rfl, fun _ _ _ hmem => absurd hmem List.not_mem_nil⟩
    have hout : (requested statuses).length ≤ (taken.flatten.filterMap Alert.request).length := by
      have hcount := outstanding_foldl p system taken.flatten
        ⟨w, (requested statuses).length, [], []⟩
      rw [← hs] at hcount
      simp only at hcount
      omega
    have hnone : later.flatten.filterMap Alert.request = [] := by
      rw [hsplit, List.flatten_append, List.filterMap_append, List.length_append] at hlen
      exact List.eq_nil_of_length_eq_zero (by omega)
    have hreq : (⟨g, true⟩ : ResumeRequest) ∈ taken.flatten.filterMap Alert.request := by
      have hall := h.mem_iff.mpr (List.mem_append_left _ (mem_ownCalls.mpr hg))
      rwa [hsplit, List.flatten_append, List.filterMap_append, hnone, List.append_nil] at hall
    obtain ⟨a, ha, hreq⟩ := List.mem_filterMap.mp hreq
    refine answered_of_consumed p hsaving ?_ hreq
    rw [hs, consumed_foldl]
    exact List.mem_append_right _ ha

omit [DataFolder] in
theorem requests_of_failures (requests : List ResumeRequest) :
    (requests.map fun r => [Alert.saveResumeDataFailed r]).flatten.filterMap Alert.request =
      requests := by
  induction requests with
  | nil => rfl
  | cons r requests ih =>
    rw [List.map_cons, List.flatten_cons, List.filterMap_append, ih]
    rfl

theorem waitLoop_failures (requests : List ResumeRequest) (later : List (List Alert))
    (s : Closing) (h : s.outstanding = requests.length) :
    ∃ s', waitLoop p system s (requests.map (fun r => [.saveResumeDataFailed r]) ++ later) = some s' ∧
      s'.consumed = s.consumed ++ requests.map .saveResumeDataFailed := by
  induction requests generalizing s with
  | nil =>
    refine ⟨s, ?_, by simp⟩
    have hzero : ¬ s.outstanding > 0 := by
      rw [h]
      simp
    cases later with
    | nil => rw [List.map_nil, List.append_nil, waitLoop, if_neg hzero]
    | cons alerts later => rw [List.map_nil, List.nil_append, waitLoop, if_neg hzero]
  | cons r requests ih =>
    have hpos : s.outstanding > 0 := by
      rw [h, List.length_cons]
      omega
    have hnext : (consume p system s (.saveResumeDataFailed r)).outstanding = requests.length := by
      simp only [consume, h, List.length_cons]
      omega
    obtain ⟨s', hs', hconsumed⟩ := ih _ hnext
    refine ⟨s', ?_, ?_⟩
    · rw [List.map_cons, List.cons_append, waitLoop, if_pos hpos]
      exact hs'
    · rw [hconsumed]
      simp [consume]

/-- A reply to an earlier call takes the place of one of its own. -/
theorem onClose_of_earlier (w : World) {statuses : List StatusToSave}
    (hdistinct : (requested statuses).Nodup) {g : Sha1Hash} {own : List Sha1Hash}
    (hown : requested statuses = g :: own) (e : Sha1Hash) (earlier : List Sha1Hash) :
    ∃ deliveries s, Answers (e :: earlier) (requested statuses) deliveries ∧
      onClose p system w statuses deliveries = some s ∧ ¬ Answered p w s g := by
  let first : List ResumeRequest := ⟨e, false⟩ :: ownCalls own
  let rest : List ResumeRequest := ⟨g, true⟩ :: earlierCalls earlier
  let later : List (List Alert) := rest.map fun r => [.saveResumeDataFailed r]
  obtain ⟨s, hs, hconsumed⟩ := waitLoop_failures p system first later
    ⟨w, (requested statuses).length, [], []⟩ (by simp [first, hown])
  refine ⟨_, s, ?_, hs, ?_⟩
  · rw [Answers, List.flatten_append, List.filterMap_append, requests_of_failures,
      requests_of_failures, hown]
    have hfront : (first ++ rest).Perm
        (⟨e, false⟩ :: ⟨g, true⟩ :: (ownCalls own ++ earlierCalls earlier)) :=
      List.perm_middle.cons _
    have hback : (⟨g, true⟩ :: ⟨e, false⟩ :: (ownCalls own ++ earlierCalls earlier)).Perm
        (ownCalls (g :: own) ++ earlierCalls (e :: earlier)) :=
      List.perm_middle.symm.cons _
    exact hfront.trans ((List.Perm.swap _ _ _).trans hback)
  · rintro ⟨a, ha, hreq, -⟩
    rw [hconsumed] at ha
    obtain ⟨r, hr, rfl⟩ := List.mem_map.mp ha
    have hrg : r = ⟨g, true⟩ := Option.some.inj hreq
    rw [hown, List.nodup_cons] at hdistinct
    simp [first, hrg, hdistinct.1] at hr

theorem onClose_of_none_requested (w : World) {statuses : List StatusToSave}
    (h : requested statuses = []) (deliveries : List (List Alert)) :
    ∃ s, onClose p system w statuses deliveries = some s := by
  refine ⟨⟨w, 0, [], []⟩, ?_⟩
  rw [onClose, h]
  cases deliveries <;> rfl

/-- However the alerts are delivered, `onClose` ends with the replies to all of
its calls taken, exactly when no earlier call is unanswered as it begins, or it
calls for nothing. -/
theorem onClose_waits_iff (w : World) {statuses : List StatusToSave}
    (hdistinct : (statuses.map StatusToSave.torrent).Nodup) (earlier : List Sha1Hash) :
    (∀ deliveries, Answers earlier (requested statuses) deliveries →
      ∃ s, onClose p system w statuses deliveries = some s ∧
        ∀ g ∈ requested statuses, Answered p w s g) ↔
      requested statuses = [] ∨ earlier = [] := by
  constructor
  · intro h
    by_contra hne
    rw [not_or] at hne
    obtain ⟨g, own, hown⟩ := List.exists_cons_of_ne_nil hne.1
    obtain ⟨e, es, rfl⟩ := List.exists_cons_of_ne_nil hne.2
    obtain ⟨deliveries, s, hanswers, hs, hnot⟩ :=
      onClose_of_earlier p system w (requested_nodup hdistinct) hown e es
    obtain ⟨s', hs', hall⟩ := h deliveries hanswers
    obtain rfl := Option.some.inj (hs.symm.trans hs')
    exact hnot (hall g (by simp [hown]))
  · rintro (hnil | rfl) deliveries hanswers
    · obtain ⟨s, hs⟩ := onClose_of_none_requested p system w hnil deliveries
      refine ⟨s, hs, fun g hg => absurd hg ?_⟩
      rw [hnil]
      exact List.not_mem_nil
    · exact onClose_of_no_earlier p system w statuses hanswers

end

def twoToSave : List StatusToSave :=
  [⟨torrentA.infoHash, true, true, true⟩, ⟨torrentB.infoHash, true, true, true⟩]

def savesAll : Nat → ∀ v, Outcome v := fun _ v => wholeSave v

def replies : List (List Alert) :=
  [[.torrentPaused], [.saveResumeData ⟨torrentB.infoHash, true⟩ (some savedEntry), .other],
    [.saveResumeDataFailed ⟨torrentA.infoHash, true⟩]]

def savedFile : Option QByteArray :=
  letI := plainFolder
  (onClose .unix savesAll (running []) twoToSave replies).bind fun s =>
    s.world.disk.read (hashFile torrentB.infoHash .resume)

theorem close_without_earlier :
    savedFile = some (@resumeFile plainFolder .unix (running []) torrentB.infoHash savedEntry) ∧
    ∃ s, @onClose plainFolder .unix savesAll (running []) twoToSave replies = some s ∧
      ∀ g ∈ requested twoToSave, @Answered plainFolder .unix (running []) s g := by
  refine ⟨by decide +kernel, (@onClose_waits_iff plainFolder .unix savesAll (running []) twoToSave
    (by decide) []).mpr (.inr rfl) _ ?_⟩
  exact List.Perm.swap _ _ _

theorem close_after_setGroup :
    ¬ ∀ (_ : DataFolder) (p : Platform) (system : Nat → ∀ v, Outcome v) (w : World)
      (statuses : List StatusToSave) (earlier : List Sha1Hash) (deliveries : List (List Alert))
      (s : Closing), (statuses.map StatusToSave.torrent).Nodup →
      Answers earlier (requested statuses) deliveries →
      onClose p system w statuses deliveries = some s →
      ∀ g ∈ requested statuses, Answered p w s g := by
  intro h
  let _ := plainFolder
  obtain ⟨deliveries, s, hanswers, hs, hnot⟩ := onClose_of_earlier .unix savesAll (plainWorld [])
    (show (requested twoToSave).Nodup by decide) rfl torrentA.infoHash []
  exact hnot (h plainFolder .unix savesAll (plainWorld []) twoToSave _ deliveries s (by decide)
    hanswers hs _ (by decide))

end TorrentManager
end CuteTorrent
