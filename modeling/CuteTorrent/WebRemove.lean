import CuteTorrent.MagnetLinks
import CuteTorrent.RowAccess

/-! A torrent is removed from the window, by `removeRow`, and over the web, by
the action `remove`. -/
namespace CuteTorrent
open HttpRequestHandler TorrentManager TorrentStorrage TorrentApiController

section
variable [DataFolder]

def performCall (p : Platform) (w : World) : Call → World
  | .removeTorrent it _ delFiles =>
    match w.storrage.value it with
    | some t => Torrent.RemoveTorrent p w t delFiles
    | none => w
  | .other _ _ => w

/-- `removeRow` with what it does to session, store and files. -/
def removeRowFromWindow (p : Platform) (w : World) (m : DisplayModel) (row : Int) (delFiles : Bool) :
    Except Fault World := do
  let (_, calls, _) ← DisplayModel.removeRow { m with torrents := w.storrage } row delFiles
  return calls.foldl (performCall p) w

structure RemovesOverWeb [Md5] (p : Platform) (m : RequestMapper) (w : WebWorld)
    (request : HttpRequest) (id : QString) : Prop where
  route_eq : Route.ofPath request.getPath = .action
  method_eq : toUpper request.method = literal "POST"
  action_eq : p.fromCString (request.getParameter "action") = "remove".toList
  id_eq : p.fromCString (request.getParameter "id") = id
  authorised : (m.controller .action).requireAuth = true →
    (CheckCreditinals p w.settings request .initial).1 = true

def Running (w : World) (t : Torrent) : Prop :=
  t.handle.isValid = true ∧ w.session.Has t.handle.hash

instance (w : World) (t : Torrent) : Decidable (Running w t) := inferInstanceAs (Decidable (_ ∧ _))

theorem removeTorrent_delfiles (p : Platform) (w : World) (t : Torrent) :
    Torrent.RemoveTorrent p w t true = { Torrent.RemoveTorrent p w t false with
      deleted := if Running w t then w.deleted ++ [t.handle.hash] else w.deleted } := by
  by_cases hvalid : t.handle.isValid = true
  · have hsome : (w.session.find t.handle.hash).isSome = true ↔ w.session.Has t.handle.hash := by
      rw [Option.isSome_iff_ne_none, ne_eq, find_eq_none, not_not]
    simp [Torrent.RemoveTorrent, TorrentManager.RemoveTorrent, hvalid, Running, hsome]
  · simp [Torrent.RemoveTorrent, hvalid, Running]

theorem deleted_removeTorrent (p : Platform) (w : World) (t : Torrent) :
    (Torrent.RemoveTorrent p w t false).deleted = w.deleted := by
  rw [Torrent.RemoveTorrent]
  split_ifs
  · simp [TorrentManager.RemoveTorrent]
  · rfl

theorem removeTorrent_eq_iff (p : Platform) (w : World) (t : Torrent) :
    Torrent.RemoveTorrent p w t true = Torrent.RemoveTorrent p w t false ↔ ¬ Running w t := by
  rw [removeTorrent_delfiles]
  constructor
  · intro h hrunning
    have hdeleted := congrArg World.deleted h
    rw [deleted_removeTorrent, if_pos hrunning] at hdeleted
    simp at hdeleted
  · intro h
    rw [if_neg h, ← deleted_removeTorrent p w t]

theorem removeRowFromWindow_eq (p : Platform) {w : World} (h : w.storrage.WF) (m : DisplayModel)
    {row : Nat} {id : QString} {t : Torrent} (hrow : w.storrage.filteredTorrents[row]? = some id)
    (ht : w.storrage.value id = some t) (delFiles : Bool) :
    removeRowFromWindow p w m row delFiles = .ok (Torrent.RemoveTorrent p w t delFiles) := by
  have hlt : row < w.storrage.filteredTorrents.length := by
    obtain ⟨hlt, -⟩ := List.getElem?_eq_some_iff.mp hrow
    exact hlt
  have hat := h.atIndex_eq hlt
  rw [hrow] at hat
  have hin : ¬ ((row : Int) > w.storrage.count ∨ (row : Int) < 0) := by
    rw [TorrentStorrage.count]
    omega
  have hany : ¬ w.storrage.count = 0 := by
    rw [TorrentStorrage.count]
    omega
  have hremove : ∃ m', DisplayModel.removeRow { m with torrents := w.storrage } row delFiles =
      .ok (m', [.removeTorrent id t.handle.infoHash.hex delFiles], true) := by
    rw [DisplayModel.removeRow, if_neg hin, DisplayModel.rowCount, if_neg hany, hat]
    simp only [Bind.bind, Except.bind, Pure.pure, Except.pure]
    split_ifs
    · simp only [ht]
      exact ⟨_, rfl⟩
    · simp only [ht]
      exact ⟨_, rfl⟩
  obtain ⟨m', hm'⟩ := hremove
  rw [removeRowFromWindow, hm']
  simp only [Bind.bind, Except.bind, Pure.pure, Except.pure, List.foldl_cons, List.foldl_nil,
    performCall, ht]

variable [Md5] [QtHash] [QtJson] [WebServer] [Libtorrent]

theorem world_of_removesOverWeb {p : Platform} {m : RequestMapper} {w : WebWorld}
    {request : HttpRequest} {id : QString} (h : RemovesOverWeb p m w request id) {t : Torrent}
    (ht : w.world.storrage.value id = some t) :
    (m.service p w request).2.web.world = Torrent.RemoveTorrent p w.world t true := by
  have hcommand : ∀ (handler : HttpRequestHandler) (v : WebWorld) (response : HttpResponse),
      v.world = w.world → (CommandsApiController.serveCommand p request handler v response).web.world =
        Torrent.RemoveTorrent p w.world t true := by
    intro handler v response hv
    rw [CommandsApiController.serveCommand, if_pos h.method_eq]
    simp only [CommandsApiController.command, h.action_eq, h.id_eq, hv, ht]
    rfl
  simp only [RequestMapper.service, h.route_eq, RequestMapper.serve, CommandsApiController.service]
  split_ifs with hmember
  · have hverdict := h.authorised hmember
    rw [afterCheck]
    simp only [hverdict, Bool.not_true, Bool.false_eq_true, if_false]
    exact hcommand _ _ _ rfl
  · exact hcommand _ _ _ rfl

theorem removed_alike_iff {p : Platform} {m : RequestMapper} {w : WebWorld}
    (hwf : w.world.storrage.WF) {request : HttpRequest} {id : QString}
    (h : RemovesOverWeb p m w request id) (view : DisplayModel) {row : Nat}
    (hrow : w.world.storrage.filteredTorrents[row]? = some id) {t : Torrent}
    (ht : w.world.storrage.value id = some t) :
    removeRowFromWindow p w.world view row false = .ok (m.service p w request).2.web.world ↔
      ¬ Running w.world t := by
  rw [removeRowFromWindow_eq p hwf view hrow ht, world_of_removesOverWeb h ht, Except.ok.injEq,
    eq_comm]
  exact removeTorrent_eq_iff p w.world t

variable [QtTables] [QtAlgorithms]

/-- The two ways to remove a torrent end in the same state exactly when the
torrent does not run in the session. -/
theorem removes_like_window_iff {p : Platform} {m : RequestMapper} {w : WebWorld}
    (hreach : w.world.storrage.Reached) {request : HttpRequest} {id : QString}
    (h : RemovesOverWeb p m w request id) (view : DisplayModel) {row : Nat}
    (hrow : w.world.storrage.filteredTorrents[row]? = some id) {t : Torrent}
    (ht : w.world.storrage.value id = some t) :
    removeRowFromWindow p w.world view row false = .ok (m.service p w request).2.web.world ↔
      ¬ Running w.world t :=
  removed_alike_iff hreach.wf h view hrow ht

end

/-! ### One torrent, removed over the web -/

def removeRequest : HttpRequest where
  method := literal "POST"
  path := literal "/torrent/action"
  headers := []
  parameters := [(literal "action", literal "remove"), (literal "id", toUtf8 torrentB.infoHash.hex)]
  uploadedFiles := []
  body := []

def openMapper : RequestMapper := ⟨fun _ => ⟨false, ⟨[], []⟩⟩⟩

def storedTorrent (isValid : Bool) : Torrent := ⟨⟨isValid, torrentB.infoHash, .initial, false⟩, []⟩

def showingB : TorrentStorrage := (TorrentStorrage.initial .none).append (storedTorrent true)

def loaded : @World plainFolder :=
  letI := plainFolder
  { plainWorld [] with
    session := [⟨torrentB, ⟨torrentB, [], [], [], [], false⟩⟩]
    storrage := showingB }

def abandoned : @World plainFolder :=
  letI := plainFolder
  { plainWorld [] with
    storrage := showingB.changeTorrent torrentB.infoHash.hex false .initial false [] }

def webOf (w : @World plainFolder) : @WebWorld plainFolder := @WebWorld.mk plainFolder w [] [] [] []

def emptyView : DisplayModel := ⟨.initial .none, none, 0, [], List.nodup_nil⟩

theorem removesOverWeb_removeRequest (w : @WebWorld plainFolder) :
    @RemovesOverWeb plainFolder sampleMd5 .unix openMapper w removeRequest torrentB.infoHash.hex := by
  let _ := plainFolder
  let _ := sampleMd5
  refine ⟨by decide +kernel, by decide +kernel, by decide +kernel, by decide +kernel, ?_⟩
  exact fun h => absurd h (by decide)

theorem abandoned_removed_alike :
    @removeRowFromWindow plainFolder .unix abandoned emptyView (0 : Nat) false =
      .ok (@WebWorld.world plainFolder (@Served.web plainFolder (@RequestMapper.service plainFolder
        sampleMd5 plainHash plainJson plainServer sampleLibtorrent .unix openMapper (webOf abandoned)
        removeRequest).2)) := by
  refine (@removes_like_window_iff plainFolder sampleMd5 plainHash plainJson plainServer
    sampleLibtorrent asciiCase insertionSorting .unix openMapper (webOf abandoned) ?_ removeRequest
    torrentB.infoHash.hex (removesOverWeb_removeRequest _) emptyView 0 (by decide +kernel)
    (storedTorrent false) (by decide +kernel)).mpr ?_
  · exact ⟨.none, [.refresh (.append (storedTorrent true)),
      .refresh (.changeTorrent torrentB.infoHash.hex false .initial false [])], rfl⟩
  · exact fun h => absurd h.1 (by decide)

/-- The data of a running torrent goes with it. -/
theorem running_removed_with_data :
    ¬ ∀ (_ : DataFolder) (_ : Md5) (_ : QtHash) (_ : QtJson) (_ : WebServer) (_ : Libtorrent)
      (_ : QtTables) (_ : QtAlgorithms) (p : Platform) (m : RequestMapper) (w : WebWorld)
      (request : HttpRequest) (id : QString) (view : DisplayModel) (row : Nat) (t : Torrent),
      w.world.storrage.Reached → RemovesOverWeb p m w request id →
      w.world.storrage.filteredTorrents[row]? = some id → w.world.storrage.value id = some t →
      removeRowFromWindow p w.world view row false = .ok (m.service p w request).2.web.world := by
  intro h
  have hwf : showingB.WF := append_wf (initial_wf .none) (storedTorrent true)
  have hrow : showingB.filteredTorrents[0]? = some torrentB.infoHash.hex := by decide +kernel
  have ht : showingB.value torrentB.infoHash.hex = some (storedTorrent true) := by decide +kernel
  have hsame := h plainFolder sampleMd5 plainHash plainJson plainServer sampleLibtorrent asciiCase
    insertionSorting .unix openMapper (webOf loaded) removeRequest _ emptyView 0 _
    ⟨.none, [.refresh (.append (storedTorrent true))], rfl⟩ (removesOverWeb_removeRequest _) hrow ht
  have hnot := (@removed_alike_iff plainFolder sampleMd5 plainHash plainJson plainServer
    sampleLibtorrent _ _ (webOf loaded) hwf _ _ (removesOverWeb_removeRequest _) emptyView _ hrow _
    ht).mp hsame
  let _ := plainFolder
  exact hnot (by decide +kernel)

end CuteTorrent
