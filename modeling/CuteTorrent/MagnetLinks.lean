import CuteTorrent.Library.Runs
import CuteTorrent.InitSession

/-! Magnet links: the waiter threads, the open dialogs and what a dialog's
`CancelMagnetLink` takes out of the session. -/
namespace CuteTorrent
namespace TorrentManager
open Runs Naming

/-- `parse_magnet_uri`: the info hash and the name, or an error. -/
class MagnetLibtorrent extends Libtorrent where
  parseMagnetUri : QByteArray → Option (Sha1Hash × QByteArray)

/-- How far the waiter of a link has come. A handle is named by the hash of its
torrent; it is lost when the torrent leaves the session. -/
inductive WaiterPhase where
  | noLink
  | started
  | failed
  | added (handle : Sha1Hash)
  | loaded (handle : Sha1Hash)
  | ready (handle : Sha1Hash)
  | lost
  | done
deriving DecidableEq

namespace WaiterPhase

/-- The valid handle `ProcessMagnetLink` got, until `AddMagnet` takes it. -/
def handle : WaiterPhase → Option Sha1Hash
  | added h | loaded h | ready h => some h
  | noLink | started | failed | lost | done => none

def lose (h : Sha1Hash) (ph : WaiterPhase) : WaiterPhase :=
  if ph.handle = some h then .lost else ph

theorem handle_lose (h k : Sha1Hash) (ph : WaiterPhase) :
    (ph.lose h).handle = some k ↔ ph.handle = some k ∧ k ≠ h := by
  by_cases hh : ph.handle = some h
  · have hlost : (ph.lose h).handle = none := by
      rw [lose, if_pos hh]
      rfl
    rw [hlost, hh, Option.some.injEq]
    constructor
    · intro hc
      exact absurd hc (by simp)
    · intro ⟨he, hne⟩
      exact absurd he.symm hne
  · rw [lose, if_neg hh]
    refine ⟨fun hk => ⟨hk, ?_⟩, fun hk => hk.1⟩
    rintro rfl
    exact hh hk

end WaiterPhase

/-- A dialog on a file or a link, or a waiter of the web interface. -/
structure Dialog where
  filename : QString
  phase : WaiterPhase
  isOpen : Bool
  isWeb : Bool
deriving DecidableEq

inductive DialogOp where
  | setData (filename : QString)
  | webLink (link : QString)
  | processMagnetLink (d : Nat)
  | metadata (d : Nat) (info : TorrentInfo)
  | metadataReceived (h : Sha1Hash) (buf : QByteArray)
  | downloadCompleted (d : Nat)
  | errorOccured (d : Nat)
  | accept (d : Nat) (group : QString)
  | reject (d : Nat)
  | add (c : AddCall)
  | remove (h : Sha1Hash) (delFiles : Bool)

def setInfo (session : Session) (h : Sha1Hash) (info : TorrentInfo) : Session :=
  session.map fun s =>
    if s.infoHash = h ∧ s.info.isValid = false then
      { s with info := { info with infoHash := h, isValid := true } }
    else s

section
variable [DataFolder]

/-- `pending` records which torrents of the session a waiter added and `AddMagnet`
has not committed, with the waiter; no step reads it. -/
structure DialogWorld where
  world : World
  dialogs : List Dialog
  pending : List (Sha1Hash × Nat)

def DialogWorld.forget (s : DialogWorld) (h : Sha1Hash) : DialogWorld :=
  { s with
    dialogs := s.dialogs.map fun d => { d with phase := d.phase.lose h }
    pending := Assoc.erase h s.pending }

def DialogWorld.setDialog (s : DialogWorld) (d : Nat) (f : Dialog → Dialog) : DialogWorld :=
  { s with dialogs := s.dialogs.modify d f }

def DialogWorld.handleAt (s : DialogWorld) (d : Nat) : Option Sha1Hash :=
  (s.dialogs[d]?).bind fun dlg => dlg.phase.handle

/-- `AddMagnet` on a handle; without metadata `new Torrent` throws. -/
def AddMagnet (w : World) (h : Sha1Hash) (group : QString) : Except Fault World :=
  match w.session.find h with
  | some s => do
    let torrent ← newTorrent s group
    return { w with storrage := w.storrage.append torrent }
  | none => .error .noMetadata

def commit (s : DialogWorld) (d : Nat) (h : Sha1Hash) (group : QString) : DialogWorld :=
  match AddMagnet s.world h group with
  | .error _ => s
  | .ok w =>
    { s.setDialog d fun dlg => { dlg with phase := .done, isOpen := false } with
      world := w
      pending := Assoc.erase h s.pending }

variable [MagnetLibtorrent] (p : Platform)

/-- The parameters of a magnet link name no metadata; resume data may hold it. -/
def magnetInfo (h : Sha1Hash) (resumeData : QByteArray) : TorrentInfo :=
  let none := ⟨h, [], [], false⟩
  match Libtorrent.resumeInfo resumeData with
  | some info => if resumeData ≠ [] ∧ (info.infoHash = h ∨ h = .zero) then info else none
  | Option.none => none

def processMagnetLink (w : World) (link : QString) : Option SessionTorrent := do
  let (h, name) ← MagnetLibtorrent.parseMagnetUri (p.toStdString link)
  let buf := (loadFile w.disk (hashFile h .resume)).getD []
  let info := magnetInfo h buf
  if w.session.Has info.infoHash then none
  else some ⟨info, ⟨⟨h, [], [], false⟩, name, [], [], buf, false⟩⟩

/-- The hash `CancelMagnetLink` looks for; zero for what is no link. -/
def linkHash (link : QString) : Sha1Hash :=
  ((MagnetLibtorrent.parseMagnetUri (p.toStdString link)).map Prod.fst).getD .zero

def CancelMagnetLink (w : World) (link : QString) : World :=
  match w.session.find (linkHash p link) with
  | some s =>
    { w with
      disk := w.disk.remove (hashFile s.infoHash .torrent)
      session := w.session.removeTorrent s.infoHash
      deleted := w.deleted ++ [s.infoHash] }
  | none => { w with disk := w.disk.remove (hashFile .zero .torrent) }

def dialogStep (s : DialogWorld) : DialogOp → DialogWorld
  | .setData filename =>
    { s with dialogs := s.dialogs ++ [⟨filename,
        if "magnet".toList.isPrefixOf filename then .started else .noLink, true, false⟩] }
  | .webLink link => { s with dialogs := s.dialogs ++ [⟨link, .started, false, true⟩] }
  | .processMagnetLink d =>
    match s.dialogs[d]? with
    | none => s
    | some dlg =>
      if dlg.phase = .started then
        match processMagnetLink p s.world dlg.filename with
        | none => s.setDialog d fun dlg => { dlg with phase := .failed }
        | some t =>
          { s.setDialog d fun dlg => { dlg with phase := .added t.infoHash } with
            world := { s.world with session := s.world.session ++ [t] }
            pending := (t.infoHash, d) :: s.pending }
      else s
  | .metadata d info =>
    match (s.dialogs[d]?).map Dialog.phase with
    | some (.added h) =>
      { s.setDialog d fun dlg => { dlg with phase := .loaded h } with
        world := { s.world with session := setInfo s.world.session h info } }
    | _ => s
  | .metadataReceived h buf =>
    { s with world := { s.world with disk := s.world.disk.write (hashFile h .torrent) buf } }
  | .downloadCompleted d =>
    match s.dialogs[d]? with
    | some ⟨_, .loaded h, true, false⟩ => s.setDialog d fun dlg => { dlg with phase := .ready h }
    | some ⟨_, .loaded h, _, true⟩ => commit s d h []
    | _ => s
  | .errorOccured d =>
    match s.dialogs[d]? with
    | some ⟨_, .failed, true, _⟩ => s.setDialog d fun dlg => { dlg with isOpen := false }
    | _ => s
  | .accept d group =>
    match s.dialogs[d]? with
    | some ⟨_, .ready h, true, _⟩ => commit s d h group
    | some ⟨_, .noLink, true, _⟩ => s.setDialog d fun dlg => { dlg with isOpen := false }
    | _ => s
  | .reject d =>
    match s.dialogs[d]? with
    | some ⟨filename, _, true, _⟩ =>
      let closed := s.setDialog d fun dlg => { dlg with isOpen := false }
      let after := { closed with world := CancelMagnetLink p s.world filename }
      match s.world.session.find (linkHash p filename) with
      | some t => after.forget t.infoHash
      | none => after
    | _ => s
  | .add c => { s with world := (AddTorrent p s.world c).1 }
  | .remove h delFiles => { s with world := RemoveTorrent p s.world h delFiles }.forget h

end

/-! ### Whose torrent a cancel takes -/

theorem find_eq_some {session : Session} {h : Sha1Hash} {t : SessionTorrent}
    (hf : session.find h = some t) : t ∈ session ∧ t.infoHash = h :=
  ⟨List.mem_of_find?_eq_some hf, of_decide_eq_true
    (List.find?_some (p := fun s : SessionTorrent => decide (s.infoHash = h)) hf)⟩

theorem has_removeTorrent {session : Session} {h k : Sha1Hash} :
    (session.removeTorrent h).Has k ↔ session.Has k ∧ k ≠ h := by
  simp only [Session.removeTorrent, Session.Has, List.mem_filter, decide_eq_true_eq]
  constructor
  · rintro ⟨t, ⟨ht, hne⟩, rfl⟩
    exact ⟨⟨t, ht, rfl⟩, hne⟩
  · rintro ⟨⟨t, ht, rfl⟩, hne⟩
    exact ⟨t, ⟨ht, hne⟩, rfl⟩

theorem has_setInfo {session : Session} {h k : Sha1Hash} {info : TorrentInfo} :
    (setInfo session h info).Has k ↔ session.Has k := by
  have hhash : ∀ t : SessionTorrent, (if t.infoHash = h ∧ t.info.isValid = false then
      { t with info := { info with infoHash := h, isValid := true } } else t).infoHash =
        t.infoHash := by
    intro t
    split_ifs with ht
    · exact ht.1.symm
    · rfl
  simp only [setInfo, Session.Has, List.mem_map, exists_exists_and_eq_and, hhash]

section
variable [DataFolder]

structure Tracked (s : DialogWorld) : Prop where
  handles : ∀ d h, s.handleAt d = some h ↔ Assoc.find h s.pending = some d
  running : ∀ h d, Assoc.find h s.pending = some d → s.world.session.Has h

/-- The store holds torrents of the session only, and none that is pending. -/
structure StoreKept (s : DialogWorld) : Prop where
  wf : s.world.storrage.WF
  running : ∀ h : Sha1Hash, s.world.storrage.hasTorrent h.hex = true → s.world.session.Has h
  committed : ∀ h : Sha1Hash, s.world.storrage.hasTorrent h.hex = true →
    Assoc.find h s.pending = none

theorem handleAt_setDialog (s : DialogWorld) (d : Nat) (f : Dialog → Dialog) (e : Nat) :
    (s.setDialog d f).handleAt e =
      if e = d then (s.dialogs[d]?).bind fun dlg => (f dlg).phase.handle else s.handleAt e := by
  simp only [DialogWorld.handleAt, DialogWorld.setDialog, List.getElem?_modify]
  split_ifs with he hed hed
  · rw [he, Option.map_eq_map, Option.bind_map]
    rfl
  · exact absurd he.symm hed
  · exact absurd hed.symm he
  · cases s.dialogs[e]? <;> rfl

theorem handleAt_forget (s : DialogWorld) (h : Sha1Hash) (e : Nat) (k : Sha1Hash) :
    (s.forget h).handleAt e = some k ↔ s.handleAt e = some k ∧ k ≠ h := by
  simp only [DialogWorld.handleAt, DialogWorld.forget, List.getElem?_map]
  cases s.dialogs[e]? with
  | none => simp
  | some dlg => exact WaiterPhase.handle_lose h k dlg.phase

namespace Tracked
variable {s : DialogWorld}

theorem handle_iff (ht : Tracked s) {d : Nat} {dlg : Dialog} (hd : s.dialogs[d]? = some dlg)
    (h : Sha1Hash) : dlg.phase.handle = some h ↔ Assoc.find h s.pending = some d := by
  rw [← ht.handles d h, DialogWorld.handleAt, hd]
  rfl

theorem of_handles (ht : Tracked s) {s' : DialogWorld} (hh : ∀ d, s'.handleAt d = s.handleAt d)
    (hp : s'.pending = s.pending)
    (hs : ∀ k, s.world.session.Has k → s'.world.session.Has k) : Tracked s' := by
  refine ⟨fun d h => ?_, fun h d hf => ?_⟩
  · rw [hh, hp]
    exact ht.handles d h
  · rw [hp] at hf
    exact hs h (ht.running h d hf)

theorem setDialog (ht : Tracked s) (d : Nat) (f : Dialog → Dialog)
    (hf : ∀ dlg, s.dialogs[d]? = some dlg → (f dlg).phase.handle = dlg.phase.handle) :
    Tracked (s.setDialog d f) := by
  apply ht.of_handles
  · intro e
    rw [handleAt_setDialog]
    split_ifs with he
    · rw [he, DialogWorld.handleAt]
      cases hd : s.dialogs[d]? with
      | none => rfl
      | some dlg => exact hf dlg hd
    · rfl
  · rfl
  · exact fun _ hk => hk

theorem forget (ht : Tracked s) (h : Sha1Hash) {w : World}
    (hw : ∀ k, k ≠ h → s.world.session.Has k → w.session.Has k) :
    Tracked ({ s with world := w }.forget h) := by
  have hfind : ∀ k d, Assoc.find k (Assoc.erase h s.pending) = some d ↔
      Assoc.find k s.pending = some d ∧ k ≠ h := by
    intro k d
    rw [Assoc.find_erase]
    split_ifs with hk
    · simp [hk]
    · simp [hk]
  refine ⟨fun d k => ?_, fun k d hf => ?_⟩
  · rw [handleAt_forget]
    apply Iff.trans _ (hfind k d).symm
    exact and_congr_left fun _ => ht.handles d k
  · obtain ⟨hk, hne⟩ := (hfind k d).mp hf
    exact hw k hne (ht.running k d hk)

theorem pending_none (ht : Tracked s) {h : Sha1Hash} (hn : ¬ s.world.session.Has h) :
    Assoc.find h s.pending = none := by
  rw [Option.eq_none_iff_forall_ne_some]
  exact fun d hd => hn (ht.running h d hd)

theorem process (ht : Tracked s) {d : Nat} {t : SessionTorrent} (hd : s.handleAt d = none)
    (hlt : d < s.dialogs.length) (hn : ¬ s.world.session.Has t.infoHash) :
    Tracked { s.setDialog d fun dlg => { dlg with phase := .added t.infoHash } with
      world := { s.world with session := s.world.session ++ [t] }
      pending := (t.infoHash, d) :: s.pending } := by
  have hnone := ht.pending_none hn
  have hself : (s.dialogs[d]?).bind (fun dlg =>
      ({ dlg with phase := .added t.infoHash } : Dialog).phase.handle) = some t.infoHash := by
    rw [List.getElem?_eq_getElem hlt]
    rfl
  refine ⟨fun e k => ?_, fun k e hf => ?_⟩
  · have hat : (s.setDialog d fun dlg => { dlg with phase := .added t.infoHash }).handleAt e = some k ↔
        Assoc.find k ((t.infoHash, d) :: s.pending) = some e := by
      rw [handleAt_setDialog, hself, Assoc.find_cons]
      by_cases he : e = d
      · by_cases hk : t.infoHash = k
        · simp [he, hk]
        · have hother := ht.handles d k
          rw [hd] at hother
          simp only [he, if_true, hk, if_false, ← hother]
          simp [hk]
      · by_cases hk : t.infoHash = k
        · have hother := ht.handles e k
          rw [← hk, hnone] at hother
          simp only [if_neg he, ← hk, if_true, hother]
          simp [Ne.symm he]
        · simp only [if_neg he, hk, if_false]
          exact ht.handles e k
    exact hat
  · apply (has_append _ _ _).mpr
    rw [Assoc.find_cons] at hf
    split_ifs at hf with hk
    · exact Or.inr hk
    · exact Or.inl (ht.running k e hf)

theorem commit (ht : Tracked s) {d : Nat} {h : Sha1Hash} (hd : s.handleAt d = some h)
    (group : QString) : Tracked (commit s d h group) := by
  unfold TorrentManager.commit
  cases hadd : AddMagnet s.world h group with
  | error f => exact ht
  | ok w =>
    have hsession : w.session = s.world.session := by
      unfold AddMagnet at hadd
      cases hf : s.world.session.find h with
      | none => simp [hf] at hadd
      | some t =>
        simp only [hf] at hadd
        obtain ⟨torrent, -, hw⟩ := bind_eq_ok hadd
        rw [← Except.ok.inj hw]
    have howner := (ht.handles d h).mp hd
    have hdone : (s.dialogs[d]?).bind (fun dlg =>
        ({ dlg with phase := .done, isOpen := false } : Dialog).phase.handle) = none := by
      cases s.dialogs[d]? <;> rfl
    refine ⟨fun e k => ?_, fun k e hf => ?_⟩
    · have hat : (s.setDialog d fun dlg => { dlg with phase := .done, isOpen := false }).handleAt e =
          some k ↔ Assoc.find k (Assoc.erase h s.pending) = some e := by
        rw [handleAt_setDialog, hdone, Assoc.find_erase]
        by_cases he : e = d
        · by_cases hk : k = h
          · simp [he, hk]
          · have hother := ht.handles d k
            rw [hd, Option.some.injEq] at hother
            simp only [he, if_true, hk, if_false, ← hother]
            simp [Ne.symm hk]
        · by_cases hk : k = h
          · have hother := ht.handles e h
            rw [howner, Option.some.injEq] at hother
            simp only [if_neg he, hk, if_true, hother]
            simp [Ne.symm he]
          · simp only [if_neg he, hk, if_false]
            exact ht.handles e k
      exact hat
    · rw [Assoc.find_erase] at hf
      split_ifs at hf with hk
      rw [hsession]
      exact ht.running k e hf

theorem append (ht : Tracked s) {dlg : Dialog} (hdlg : dlg.phase.handle = none) :
    Tracked { s with dialogs := s.dialogs ++ [dlg] } := by
  apply ht.of_handles
  · intro e
    simp only [DialogWorld.handleAt, List.getElem?_append]
    split_ifs with he
    · rfl
    · rw [List.getElem?_eq_none (Nat.le_of_not_lt he)]
      cases hi : [dlg][e - s.dialogs.length]? with
      | none => rfl
      | some dlg' =>
        obtain rfl := List.mem_singleton.mp (List.mem_of_getElem? hi)
        exact hdlg
  · rfl
  · exact fun _ hk => hk

end Tracked

namespace StoreKept
variable {s : DialogWorld}

theorem of_store (hk : StoreKept s) {s' : DialogWorld}
    (hstore : s'.world.storrage = s.world.storrage)
    (hs : ∀ h : Sha1Hash, s.world.storrage.hasTorrent h.hex = true → s'.world.session.Has h)
    (hp : ∀ h : Sha1Hash, s.world.storrage.hasTorrent h.hex = true →
      Assoc.find h s'.pending = none) : StoreKept s' := by
  refine ⟨?_, ?_, ?_⟩
  · rw [hstore]
    exact hk.wf
  · rw [hstore]
    exact hs
  · rw [hstore]
    exact hp

theorem forget (hk : StoreKept s) (h : Sha1Hash) {w : World} (hstore : w.storrage = s.world.storrage)
    (hw : ∀ k, k ≠ h → s.world.session.Has k → w.session.Has k)
    (hno : ¬ s.world.storrage.hasTorrent h.hex = true) :
    StoreKept ({ s with world := w }.forget h) := by
  apply hk.of_store hstore
  · intro k hstored
    apply hw k _ (hk.running k hstored)
    rintro rfl
    exact hno hstored
  · intro k hstored
    have hfind : Assoc.find k (Assoc.erase h s.pending) = none := by
      rw [Assoc.find_erase]
      split_ifs
      · rfl
      · exact hk.committed k hstored
    exact hfind

theorem commit (hk : StoreKept s) (d : Nat) (h : Sha1Hash) (group : QString) :
    StoreKept (commit s d h group) := by
  unfold TorrentManager.commit
  cases hadd : AddMagnet s.world h group with
  | error f => exact hk
  | ok w =>
    unfold AddMagnet at hadd
    cases hf : s.world.session.find h with
    | none => simp [hf] at hadd
    | some t =>
      simp only [hf] at hadd
      obtain ⟨torrent, hnew, hw⟩ := bind_eq_ok hadd
      unfold newTorrent at hnew
      split_ifs at hnew
      obtain rfl := Except.ok.inj hnew
      obtain rfl := Except.ok.inj hw
      obtain ⟨hmem, hhash⟩ := find_eq_some hf
      have hstored : ∀ k : Sha1Hash, (s.world.storrage.append
          ⟨⟨true, t.infoHash, .initial, false⟩, group⟩).hasTorrent k.hex = true →
            s.world.storrage.hasTorrent k.hex = true ∨ h = k := by
        intro k hstored
        rw [← hhash]
        exact (hasTorrent_added s.world t group k).mp hstored
      refine ⟨TorrentStorrage.append_wf hk.wf _, ?_, ?_⟩
      · intro k hs
        cases hstored k hs with
        | inl hs => exact hk.running k hs
        | inr heq =>
          subst heq
          exact ⟨t, hmem, hhash⟩
      · intro k hs
        have hfind : Assoc.find k (Assoc.erase h s.pending) = none := by
          rw [Assoc.find_erase]
          split_ifs with hkh
          · rfl
          · exact hk.committed k ((hstored k hs).resolve_right (Ne.symm hkh))
        exact hfind

end StoreKept

structure StoredInSession (w : World) : Prop where
  wf : w.storrage.WF
  running : ∀ h : Sha1Hash, w.storrage.hasTorrent h.hex = true → w.session.Has h

def noDialogs (w : World) : DialogWorld := ⟨w, [], []⟩

theorem tracked_noDialogs (w : World) : Tracked (noDialogs w) :=
  ⟨fun _ _ => by simp [noDialogs, DialogWorld.handleAt], fun _ _ hf => by simp [noDialogs] at hf⟩

theorem StoredInSession.storeKept {w : World} (h : StoredInSession w) : StoreKept (noDialogs w) :=
  ⟨h.wf, h.running, fun _ _ => rfl⟩

end

section
variable [DataFolder] [MagnetLibtorrent] (p : Platform)

/-- A cancelled dialog takes a torrent only if its own waiter added it and
`AddMagnet` has not committed it; every torrent of the store stays in the session
with its file. -/
def Spared (s : DialogWorld) (op : DialogOp) : Prop :=
  ∀ d, op = .reject d → ∀ dlg, s.dialogs[d]? = some dlg → dlg.isOpen = true →
    (∀ t, s.world.session.find (linkHash p dlg.filename) = some t →
      Assoc.find t.infoHash s.pending = some d) ∧
    ∀ h : Sha1Hash, s.world.storrage.hasTorrent h.hex = true →
      (dialogStep p s op).world.session.Has h ∧
      (dialogStep p s op).world.disk.read (hashFile h .torrent) =
        s.world.disk.read (hashFile h .torrent)

/-- The session has no torrent with the hash of the link, or the dialog's own
waiter holds the handle to it. -/
def OwnOrAbsent (s : DialogWorld) (op : DialogOp) : Prop :=
  ∀ d, op = .reject d → ∀ dlg, s.dialogs[d]? = some dlg → dlg.isOpen = true →
    (s.world.session.Has (linkHash p dlg.filename) →
      dlg.phase.handle = some (linkHash p dlg.filename)) ∧
    (¬ s.world.session.Has (linkHash p dlg.filename) →
      s.world.storrage.hasTorrent Sha1Hash.zero.hex = true →
        s.world.disk.read (hashFile .zero .torrent) = none)

theorem processMagnetLink_eq_some {w : World} {link : QString} {t : SessionTorrent}
    (h : processMagnetLink p w link = some t) : ¬ w.session.Has t.infoHash := by
  unfold processMagnetLink at h
  cases hparse : MagnetLibtorrent.parseMagnetUri (p.toStdString link) with
  | none => simp [hparse] at h
  | some magnet =>
    simp only [hparse, Option.bind_eq_bind, Option.bind_some] at h
    split_ifs at h with hhas
    rw [← Option.some.inj h]
    exact hhas

theorem storrage_cancelMagnetLink (w : World) (link : QString) :
    (CancelMagnetLink p w link).storrage = w.storrage := by
  unfold CancelMagnetLink
  split <;> rfl

theorem session_cancelMagnetLink (w : World) (link : QString) (k : Sha1Hash) :
    (CancelMagnetLink p w link).session.Has k ↔ w.session.Has k ∧ k ≠ linkHash p link ∨
      w.session.Has k ∧ ¬ w.session.Has (linkHash p link) := by
  unfold CancelMagnetLink
  cases hf : w.session.find (linkHash p link) with
  | none =>
    have hn := find_eq_none.mp hf
    simp only
    constructor
    · exact fun hk => Or.inr ⟨hk, hn⟩
    · rintro (⟨hk, -⟩ | ⟨hk, -⟩)
      · exact hk
      · exact hk
  | some t =>
    obtain ⟨hmem, hhash⟩ := find_eq_some hf
    have hhas : w.session.Has (linkHash p link) := ⟨t, hmem, hhash⟩
    simp only [has_removeTorrent, hhash, hhas, not_true_eq_false, and_false, or_false]

theorem has_addTorrent_of_has {w : World} {c : AddCall} {k : Sha1Hash} (h : w.session.Has k) :
    (AddTorrent p w c).1.session.Has k := by
  have hout := addTorrent_outcome p w c
  generalize AddTorrent p w c = r at hout
  cases hout with
  | unreadable ht => exact h
  | badResume ht hp => exact h
  | rejected ht hp hs => exact h
  | noMetadata ht hp hs hv => exact (has_append _ _ _).mpr (Or.inl h)
  | added ht hp hs hv => exact (has_append _ _ _).mpr (Or.inl h)

theorem tracked_processMagnetLink {s : DialogWorld} (ht : Tracked s) (d : Nat) :
    Tracked (dialogStep p s (.processMagnetLink d)) := by
  simp only [dialogStep]
  cases hd : s.dialogs[d]? with
  | none => exact ht
  | some dlg =>
    simp only
    by_cases hphase : dlg.phase = .started
    · have hat : s.handleAt d = none := by
        rw [DialogWorld.handleAt, hd, Option.bind_some, hphase]
        rfl
      rw [if_pos hphase]
      cases hp : processMagnetLink p s.world dlg.filename with
      | none =>
        apply ht.setDialog
        intro dlg' hd'
        obtain rfl := Option.some.inj (hd.symm.trans hd')
        rw [hphase]
        rfl
      | some t =>
        have hlt : d < s.dialogs.length := (List.getElem?_eq_some_iff.mp hd).1
        exact ht.process hat hlt (processMagnetLink_eq_some p hp)
    · rw [if_neg hphase]
      exact ht

theorem tracked_reject {s : DialogWorld} (ht : Tracked s) (d : Nat) :
    Tracked (dialogStep p s (.reject d)) := by
  simp only [dialogStep]
  split
  · next filename phase isWeb hd =>
    have hclosed : Tracked (s.setDialog d fun dlg => { dlg with isOpen := false }) :=
      ht.setDialog _ _ fun _ _ => rfl
    split
    · next t hf =>
      apply hclosed.forget
      intro k hne hk
      rw [(find_eq_some hf).2] at hne
      exact (session_cancelMagnetLink p s.world filename k).mpr (Or.inl ⟨hk, hne⟩)
    · next hf =>
      have hkeep : ∀ k, s.world.session.Has k →
          (CancelMagnetLink p s.world filename).session.Has k := fun k hk =>
        (session_cancelMagnetLink p s.world filename k).mpr (Or.inr ⟨hk, find_eq_none.mp hf⟩)
      exact hclosed.of_handles (fun _ => rfl) rfl hkeep
  · exact ht

theorem tracked_dialogStep {s : DialogWorld} (ht : Tracked s) (op : DialogOp) :
    Tracked (dialogStep p s op) := by
  cases op with
  | setData filename =>
    apply ht.append
    simp only
    split_ifs <;> rfl
  | webLink link => exact ht.append rfl
  | processMagnetLink d => exact tracked_processMagnetLink p ht d
  | metadata d info =>
    simp only [dialogStep]
    split
    · next h hd =>
      have hset : Tracked (s.setDialog d fun dlg => { dlg with phase := .loaded h }) := by
        apply ht.setDialog
        intro dlg hdlg
        have hphase : dlg.phase = .added h := by
          rw [hdlg] at hd
          exact Option.some.inj hd
        rw [hphase]
        rfl
      exact hset.of_handles (fun _ => rfl) rfl fun k hk => has_setInfo.mpr hk
    · exact ht
  | metadataReceived h buf => exact ht.of_handles (fun _ => rfl) rfl fun _ hk => hk
  | downloadCompleted d =>
    simp only [dialogStep]
    split
    · next filename h hd =>
      apply ht.setDialog
      intro dlg hdlg
      obtain rfl := Option.some.inj (hd.symm.trans hdlg)
      rfl
    · next filename h isOpen hd =>
      apply ht.commit
      rw [DialogWorld.handleAt, hd]
      rfl
    · exact ht
  | errorOccured d =>
    simp only [dialogStep]
    split
    · exact ht.setDialog _ _ fun _ _ => rfl
    · exact ht
  | accept d group =>
    simp only [dialogStep]
    split
    · next filename h isWeb hd =>
      apply ht.commit
      rw [DialogWorld.handleAt, hd]
      rfl
    · exact ht.setDialog _ _ fun _ _ => rfl
    · exact ht
  | reject d => exact tracked_reject p ht d
  | add c => exact ht.of_handles (fun _ => rfl) rfl fun k hk => has_addTorrent_of_has p hk
  | remove h delFiles =>
    apply ht.forget
    intro k hne hk
    exact has_removeTorrent.mpr ⟨hk, hne⟩

theorem storeKept_add {s : DialogWorld} (ht : Tracked s) (hk : StoreKept s) (c : AddCall) :
    StoreKept { s with world := (AddTorrent p s.world c).1 } := by
  have hout := addTorrent_outcome p s.world c
  generalize AddTorrent p s.world c = r at hout
  cases hout with
  | unreadable ht => exact hk
  | badResume ht hp => exact hk
  | rejected ht hp hs => exact hk
  | @noMetadata t params group tor _ hp hs hv =>
    exact hk.of_store rfl (fun h hstored => (has_append _ _ _).mpr (Or.inl (hk.running h hstored)))
      hk.committed
  | @added t params group tor _ hp hs hv =>
    obtain ⟨-, hnew, rfl⟩ := addTorrent_eq_some hs
    refine ⟨TorrentStorrage.append_wf hk.wf _, ?_, ?_⟩
    · intro h hstored
      apply (has_append _ _ _).mpr
      exact ((hasTorrent_added _ _ _ _).mp hstored).imp_left (hk.running h)
    · intro h hstored
      cases (hasTorrent_added _ _ _ _).mp hstored with
      | inl hold => exact hk.committed h hold
      | inr heq =>
        subst heq
        exact ht.pending_none hnew

theorem storeKept_remove {s : DialogWorld} (hk : StoreKept s) (h : Sha1Hash) (delFiles : Bool) :
    StoreKept (dialogStep p s (.remove h delFiles)) := by
  have hsame : ∀ k : Sha1Hash, (RemoveTorrent p s.world h delFiles).storrage.hasTorrent k.hex = true →
      s.world.storrage.hasTorrent k.hex = true ∧ k ≠ h := by
    intro k hstored
    obtain ⟨hold, hne⟩ := (TorrentStorrage.hasTorrent_remove hk.wf _ _).mp hstored
    refine ⟨hold, ?_⟩
    rintro rfl
    cases hf : s.world.session.find k with
    | none => exact find_eq_none.mp hf (hk.running k hold)
    | some t =>
      rw [hf, Option.map_some, Option.getD_some, (find_eq_some hf).2] at hne
      exact hne rfl
  refine ⟨TorrentStorrage.remove_wf hk.wf _, ?_, ?_⟩
  · intro k hstored
    obtain ⟨hold, hne⟩ := hsame k hstored
    exact has_removeTorrent.mpr ⟨hk.running k hold, hne⟩
  · intro k hstored
    obtain ⟨hold, hne⟩ := hsame k hstored
    have hfind : Assoc.find k (Assoc.erase h s.pending) = none := by
      rw [Assoc.find_erase, if_neg hne]
      exact hk.committed k hold
    exact hfind

/-- A dialog that holds the handle, or finds nothing, takes nothing of the store. -/
theorem storeKept_reject {s : DialogWorld} (ht : Tracked s) (hk : StoreKept s) (d : Nat)
    (hown : OwnOrAbsent p s (.reject d)) : StoreKept (dialogStep p s (.reject d)) := by
  simp only [dialogStep]
  split
  · next filename phase isWeb hd =>
    have hclosed : StoreKept (s.setDialog d fun dlg => { dlg with isOpen := false }) :=
      hk.of_store rfl hk.running hk.committed
    have hstore := storrage_cancelMagnetLink p s.world filename
    split
    · next t hf =>
      obtain ⟨hmem, hhash⟩ := find_eq_some hf
      have hpending := (ht.handle_iff hd _).mp ((hown d rfl _ hd rfl).1 ⟨t, hmem, hhash⟩)
      rw [← hhash] at hpending
      apply hclosed.forget t.infoHash hstore
      · intro k hne hhas
        rw [hhash] at hne
        exact (session_cancelMagnetLink p s.world filename k).mpr (Or.inl ⟨hhas, hne⟩)
      · intro hstored
        exact absurd (hpending.symm.trans (hk.committed _ hstored)) (by simp)
    · next hf =>
      have hkeep : ∀ k : Sha1Hash, s.world.storrage.hasTorrent k.hex = true →
          (CancelMagnetLink p s.world filename).session.Has k := fun k hstored =>
        (session_cancelMagnetLink p s.world filename k).mpr
          (Or.inr ⟨hk.running k hstored, find_eq_none.mp hf⟩)
      exact hclosed.of_store hstore hkeep hk.committed
  · exact hk

theorem storeKept_processMagnetLink {s : DialogWorld} (hk : StoreKept s) (d : Nat) :
    StoreKept (dialogStep p s (.processMagnetLink d)) := by
  simp only [dialogStep]
  split
  · exact hk
  · split_ifs
    · split
      · exact hk.of_store rfl hk.running hk.committed
      · next t hp =>
        have hnew := processMagnetLink_eq_some p hp
        refine hk.of_store rfl ?_ ?_
        · exact fun h hstored => (has_append _ _ _).mpr (Or.inl (hk.running h hstored))
        · intro h hstored
          have hne : t.infoHash ≠ h := by
            rintro rfl
            exact hnew (hk.running _ hstored)
          have hfind : Assoc.find h ((t.infoHash, d) :: s.pending) = none := by
            rw [Assoc.find_cons, if_neg hne]
            exact hk.committed h hstored
          exact hfind
    · exact hk

/-- As long as the cancelled dialogs take their own torrents, the store holds
torrents of the session only. -/
theorem storeKept_dialogStep {s : DialogWorld} (ht : Tracked s) (hk : StoreKept s) (op : DialogOp)
    (hown : OwnOrAbsent p s op) : StoreKept (dialogStep p s op) := by
  cases op with
  | setData filename => exact hk.of_store rfl hk.running hk.committed
  | webLink link => exact hk.of_store rfl hk.running hk.committed
  | processMagnetLink d => exact storeKept_processMagnetLink p hk d
  | metadata d info =>
    simp only [dialogStep]
    split
    · exact hk.of_store rfl (fun h hstored => has_setInfo.mpr (hk.running h hstored)) hk.committed
    · exact hk
  | metadataReceived h buf => exact hk.of_store rfl hk.running hk.committed
  | downloadCompleted d =>
    simp only [dialogStep]
    split
    · exact hk.of_store rfl hk.running hk.committed
    · exact hk.commit _ _ _
    · exact hk
  | errorOccured d =>
    simp only [dialogStep]
    split
    · exact hk.of_store rfl hk.running hk.committed
    · exact hk
  | accept d group =>
    simp only [dialogStep]
    split
    · exact hk.commit _ _ _
    · exact hk.of_store rfl hk.running hk.committed
    · exact hk
  | reject d => exact storeKept_reject p ht hk d hown
  | add c => exact storeKept_add p ht hk c
  | remove h delFiles => exact storeKept_remove p hk h delFiles

theorem world_reject {s : DialogWorld} {d : Nat} {dlg : Dialog} (hd : s.dialogs[d]? = some dlg)
    (hopen : dlg.isOpen = true) :
    (dialogStep p s (.reject d)).world = CancelMagnetLink p s.world dlg.filename := by
  obtain ⟨filename, phase, isOpen, isWeb⟩ := dlg
  obtain rfl : isOpen = true := hopen
  simp only [dialogStep, hd]
  cases s.world.session.find (linkHash p filename) with
  | none => rfl
  | some t => rfl

/-- A cancel that takes its own torrent, or the zero hash when no torrent of the
store has a file under it, keeps the files of the store's torrents. -/
theorem read_cancelMagnetLink {s : DialogWorld} (ht : Tracked s) (hk : StoreKept s) {d : Nat}
    {dlg : Dialog} (hd : s.dialogs[d]? = some dlg)
    (hown : s.world.session.Has (linkHash p dlg.filename) →
      dlg.phase.handle = some (linkHash p dlg.filename))
    (hzero : ¬ s.world.session.Has (linkHash p dlg.filename) →
      s.world.storrage.hasTorrent Sha1Hash.zero.hex = true →
        s.world.disk.read (hashFile .zero .torrent) = none)
    {h : Sha1Hash} (hstored : s.world.storrage.hasTorrent h.hex = true) :
    (CancelMagnetLink p s.world dlg.filename).disk.read (hashFile h .torrent) =
      s.world.disk.read (hashFile h .torrent) := by
  have hfile : ∀ k : Sha1Hash, h ≠ k → (s.world.disk.remove (hashFile k .torrent)).read
      (hashFile h .torrent) = s.world.disk.read (hashFile h .torrent) := by
    intro k hne
    apply Disk.read_remove_of_ne
    rw [DataFolder.resolve_hashFile, DataFolder.resolve_hashFile]
    intro he
    exact hne (hashFile_injective he).1
  unfold CancelMagnetLink
  cases hf : s.world.session.find (linkHash p dlg.filename) with
  | some t =>
    obtain ⟨hmem, hhash⟩ := find_eq_some hf
    apply hfile
    rintro rfl
    have hpending := (ht.handle_iff hd _).mp (hown ⟨t, hmem, hhash⟩)
    rw [← hhash, hk.committed _ hstored] at hpending
    exact absurd hpending (by simp)
  | none =>
    by_cases hz : h = .zero
    · rw [hz, Disk.read_remove, if_pos rfl]
      exact (hzero (find_eq_none.mp hf) (hz ▸ hstored)).symm
    · exact hfile _ hz

theorem spared_iff {s : DialogWorld} (ht : Tracked s) (hk : StoreKept s) (op : DialogOp) :
    Spared p s op ↔ OwnOrAbsent p s op := by
  constructor
  · intro hs d hop dlg hd hopen
    obtain ⟨hown, hstore⟩ := hs d hop dlg hd hopen
    refine ⟨?_, ?_⟩
    · intro hhas
      cases hf : s.world.session.find (linkHash p dlg.filename) with
      | none => exact absurd hhas (find_eq_none.mp hf)
      | some t =>
        have hpending := hown t hf
        rw [(find_eq_some hf).2] at hpending
        exact (ht.handle_iff hd _).mpr hpending
    · intro hno hzero
      have hfile := (hstore .zero hzero).2
      rw [hop, world_reject p hd hopen, CancelMagnetLink, find_eq_none.mpr hno, Disk.read_remove,
        if_pos rfl] at hfile
      exact hfile.symm
  · intro ho d hop dlg hd hopen
    obtain ⟨hown, hzero⟩ := ho d hop dlg hd hopen
    refine ⟨?_, ?_⟩
    · intro t hf
      obtain ⟨hmem, hhash⟩ := find_eq_some hf
      rw [hhash]
      exact (ht.handle_iff hd _).mp (hown ⟨t, hmem, hhash⟩)
    · intro h hstored
      have hkept := storeKept_dialogStep p ht hk op ho
      have hstore : (dialogStep p s op).world.storrage = s.world.storrage := by
        rw [hop, world_reject p hd hopen]
        exact storrage_cancelMagnetLink p s.world dlg.filename
      refine ⟨hkept.running h (by rw [hstore]; exact hstored), ?_⟩
      rw [hop, world_reject p hd hopen]
      exact read_cancelMagnetLink p ht hk hd hown hzero hstored

/-- Over every interleaving, the cancelled dialogs take only torrents their own
waiters added, and the store keeps its torrents, exactly when each cancelled
dialog holds the handle to what it finds or finds nothing. -/
theorem cancels_spare_others_iff {w : World} (hw : StoredInSession w) (ops : List DialogOp) :
    (Along (dialogStep p) (Spared p) (noDialogs w) ops ↔
      Along (dialogStep p) (OwnOrAbsent p) (noDialogs w) ops) ∧
    (Along (dialogStep p) (OwnOrAbsent p) (noDialogs w) ops →
      Throughout (dialogStep p) (fun s => StoredInSession s.world) (noDialogs w) ops) := by
  have hstep : ∀ s op, Tracked s ∧ StoreKept s → OwnOrAbsent p s op →
      Tracked (dialogStep p s op) ∧ StoreKept (dialogStep p s op) := fun s op hs ho =>
    ⟨tracked_dialogStep p hs.1 op, storeKept_dialogStep p hs.1 hs.2 op ho⟩
  have hstart : Tracked (noDialogs w) ∧ StoreKept (noDialogs w) :=
    ⟨tracked_noDialogs w, hw.storeKept⟩
  constructor
  · exact along_iff_along (fun s op hs => spared_iff p hs.1 hs.2 op)
      (fun s op hs hsp => hstep s op hs ((spared_iff p hs.1 hs.2 op).mp hsp)) hstart ops
  · intro h
    have hall := throughout_of_along (I := fun s => Tracked s ∧ StoreKept s) hstep hstart h
    exact hall.imp fun s hs => ⟨hs.2.wf, hs.2.running⟩

end

/-! ### One link twice -/

def magnetLink : QString := "magnet:?xt=urn:btih:".toList ++ torrentB.infoHash.hex

@[reducible] def sampleMagnets : MagnetLibtorrent where
  toLibtorrent := sampleLibtorrent
  parseMagnetUri buf := if buf = toUtf8 magnetLink then some (torrentB.infoHash, []) else none

theorem storedInSession_plainWorld (files : List (QString × QByteArray)) :
    @StoredInSession plainFolder (plainWorld files) := by
  let _ := plainFolder
  refine ⟨TorrentStorrage.initial_wf _, fun h hstored => ?_⟩
  simp [plainWorld, TorrentStorrage.initial, TorrentStorrage.hasTorrent, Assoc.contains] at hstored

theorem own_link_cancelled :
    @Along _ _ (@dialogStep plainFolder sampleMagnets .unix) (@Spared plainFolder sampleMagnets .unix)
      (@noDialogs plainFolder (plainWorld []))
      [.setData magnetLink, .processMagnetLink 0, .reject 0] := by
  refine (@cancels_spare_others_iff plainFolder sampleMagnets .unix _
    (storedInSession_plainWorld []) _).1.mpr ⟨?_, ?_, ?_, trivial⟩
  · exact fun d hop => absurd hop (by simp)
  · exact fun d hop => absurd hop (by simp)
  · intro d hop dlg hd _
    obtain rfl := DialogOp.reject.inj hop
    have hdlg : dlg = ⟨magnetLink, .added torrentB.infoHash, true, false⟩ := by
      apply Option.some.inj
      rw [← hd]
      decide +kernel
    rw [hdlg]
    exact ⟨fun _ => by decide +kernel, fun _ hzero => absurd hzero (by decide +kernel)⟩

/-- A dialog on a link to a torrent that is there already is cancelled before it
hears of the duplicate. -/
theorem cancel_takes_stored_torrent :
    ¬ ∀ (_ : DataFolder) (_ : MagnetLibtorrent) (p : Platform) (w : World) (ops : List DialogOp),
      StoredInSession w → Along (dialogStep p) (Spared p) (noDialogs w) ops := by
  intro h
  have hspared := (h plainFolder sampleMagnets .unix
    (plainWorld [(hashFile torrentB.infoHash .torrent, singleFile "b".toList)])
    [.add ⟨hashFile torrentB.infoHash .torrent, [], [], [], [], false⟩, .setData magnetLink,
      .processMagnetLink 0, .reject 0] (storedInSession_plainWorld _)).2.2.2.1
  obtain ⟨hown, -⟩ := hspared 0 rfl ⟨magnetLink, .failed, true, false⟩ (by decide +kernel) rfl
  have hall := (Option.all_eq_true (fun t => decide (Assoc.find t.infoHash _ = some 0)) _).mpr
    fun t ht => decide_eq_true (hown t ht)
  revert hall
  decide +kernel

end TorrentManager
end CuteTorrent
