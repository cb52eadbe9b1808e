import CuteTorrent.Library.Assoc
import CuteTorrent.Library.Fuel
import CuteTorrent.Library.Runs
import CuteTorrent.Library.RoseTree
import CuteTorrent.Library.TextCodec
import CuteTorrent.Qt
import CuteTorrent.Bencode
import CuteTorrent.Torrent
import CuteTorrent.TorrentStorrage
import CuteTorrent.DisplayModel
import CuteTorrent.FileTreeModel
import CuteTorrent.FileTreePaths
import CuteTorrent.Library.Disk
import CuteTorrent.TorrentManager
import CuteTorrent.TorrentFiles
import CuteTorrent.InitSession
import CuteTorrent.Restart
import CuteTorrent.OpenTorrentDialog
import CuteTorrent.MagnetLinks
import CuteTorrent.StorrageRuns
import CuteTorrent.IpFilter
import CuteTorrent.FilePriorities
import CuteTorrent.OnClose
import CuteTorrent.Scheduller
import CuteTorrent.ApplicationSettings
import CuteTorrent.HttpRequestHandler
import CuteTorrent.WebControl
import CuteTorrent.RowAccess
import CuteTorrent.WebLimits
import CuteTorrent.WebRemove
import CuteTorrent.AnnounceRequest
import CuteTorrent.TorrentListView
import CuteTorrent.TrackerRequestMapper
import CuteTorrent.TrackerPeers
import CuteTorrent.TrackerClient
import CuteTorrent.TrackerThreads
import CuteTorrent.SettingsDialog
import CuteTorrent.Json
import CuteTorrent.WebSettings
import CuteTorrent.MultipartRequest
import CuteTorrent.Library.Paths
import CuteTorrent.WebUpload
import CuteTorrent.Library.QList
import CuteTorrent.CheckTasks
import CuteTorrent.Library.PathTree
import CuteTorrent.UnicPathes
import CuteTorrent.BackupTable
import CuteTorrent.PathResume
import CuteTorrent.FileViewModel
import CuteTorrent.SetItemPriority
import CuteTorrent.PlaceMarkers
import CuteTorrent.FilterGroups
import CuteTorrent.QDateTime
import CuteTorrent.TaskFile
import CuteTorrent.SessionSettings
import CuteTorrent.RateLimits
import CuteTorrent.ApplyBackupPage
import CuteTorrent.DigestClient
import CuteTorrent.SearchItemsStorrage
import CuteTorrent.CreateTorrentDialog
import CuteTorrent.PeiceDisplayWidget
import CuteTorrent.SaveFile
import CuteTorrent.SchedullerTab
import CuteTorrent.UpdateNotifier
import CuteTorrent.NamedLists
import CuteTorrent.SelectedTorrent
import CuteTorrent.Library.LevelOrder
import CuteTorrent.SearchPage
import CuteTorrent.SearchPages
import CuteTorrent.PaginationController
import CuteTorrent.StorrageInstances
import CuteTorrent.Library.Leader
import CuteTorrent.QBalloonTip
import CuteTorrent.StaticHelpers
import CuteTorrent.FileViewSortProxyModel
import CuteTorrent.MediaController
import CuteTorrent.PeerTable
import CuteTorrent.HttpCookie
import CuteTorrent.HttpReading
import CuteTorrent.HttpPieces
import CuteTorrent.HttpRoundTrip
import CuteTorrent.HttpForms
import CuteTorrent.HttpWire
import CuteTorrent.HttpConnections
import CuteTorrent.HttpConversation
import CuteTorrent.JsonText
import CuteTorrent.WebSettingsReply
import CuteTorrent.Library.Numeral
import CuteTorrent.Library.Reader
import CuteTorrent.Library.HttpMessage
import CuteTorrent.HttpConnectionHandlerPool
import CuteTorrent.Library.Preorder
import CuteTorrent.QSgml
import CuteTorrent.SgmlText
import CuteTorrent.SgmlMarkup
import CuteTorrent.SgmlPages
import CuteTorrent.SgmlElements
import CuteTorrent.SearchReplies
import CuteTorrent.KickassSearchProvider
import CuteTorrent.SearchEngine
import CuteTorrent.CreateBackupPage
