import CuteTorrent.Qt

/-! `Torrent`: a torrent handle with its group, and what the filters ask of it. -/
namespace CuteTorrent

inductive TorrentState where
  | queuedForChecking
  | checkingFiles
  | downloadingMetadata
  | downloading
  | finished
  | seeding
  | allocating
  | checkingResumeData
deriving DecidableEq, Repr

namespace TorrentState

def toInt : TorrentState → Int
  | queuedForChecking => 0
  | checkingFiles => 1
  | downloadingMetadata => 2
  | downloading => 3
  | finished => 4
  | seeding => 5
  | allocating => 6
  | checkingResumeData => 7

end TorrentState

structure TorrentStatus where
  state : TorrentState
  downloadRate : Int
  uploadRate : Int
  progressPpm : Nat
deriving DecidableEq, Repr

/-- What `status()` gives for an invalid handle. -/
def TorrentStatus.initial : TorrentStatus := ⟨.checkingResumeData, 0, 0, 0⟩

/-- A `torrent_handle` with the answers it gives now. -/
structure TorrentHandle where
  isValid : Bool
  hash : Sha1Hash
  torrentStatus : TorrentStatus
  isSeed : Bool
deriving DecidableEq

namespace TorrentHandle

def infoHash (h : TorrentHandle) : Sha1Hash := if h.isValid then h.hash else .zero

def status (h : TorrentHandle) : TorrentStatus :=
  if h.isValid then h.torrentStatus else .initial

end TorrentHandle

structure Torrent where
  handle : TorrentHandle
  group : QString
deriving DecidableEq

namespace Torrent

def isActive (t : Torrent) : Bool :=
  decide (t.handle.status.downloadRate > 2 * 1024) || decide (t.handle.status.uploadRate > 2 * 1024) ||
    decide (t.handle.status.state = .checkingFiles)

def isDownloading (t : Torrent) : Bool :=
  t.handle.isValid && decide (t.handle.status.state.toInt ≥ 2) &&
    decide (t.handle.status.state.toInt ≤ 3)

def isSeeding (t : Torrent) : Bool :=
  t.handle.isValid && (decide (t.handle.status.state.toInt = 4) || t.handle.isSeed)

def getProgress (t : Torrent) : Nat :=
  if t.handle.isValid then t.handle.status.progressPpm / 10000 else 0

def getInfoHash (t : Torrent) : QString := if t.handle.isValid then t.handle.infoHash.hex else []

/-- `GetUploadSpeed().isEmpty()`; the text of a rate is never empty. -/
def uploadSpeedIsEmpty (t : Torrent) : Bool :=
  !(t.handle.isValid && decide (t.handle.status.uploadRate > 2 * 1024))

/-- `GetDwonloadSpeed().isEmpty()` -/
def dwonloadSpeedIsEmpty (t : Torrent) : Bool :=
  !(t.handle.isValid && decide (t.handle.status.downloadRate > 2 * 1024))

end Torrent
end CuteTorrent
