import CuteTorrent.ApplicationSettings
import CuteTorrent.Library.Runs
import CuteTorrent.Scheduller

/-! The settings of the session: `TorrentManager::readSettings` fills them from the
settings file, `SchedulerTask::pefromTask` changes one rate limit and sets them. -/
namespace CuteTorrent

/-- The fields of `libtorrent::session_settings` that hold a number, a flag or an
enumeration. `other` are those that are only copied. -/
inductive Setting where
  | half_open_limit
  | allow_multiple_connections_per_ip
  | use_disk_read_ahead
  | disable_hash_checks
  | peer_timeout
  | announce_to_all_tiers
  | download_rate_limit
  | upload_rate_limit
  | torrent_connect_boost
  | unchoke_slots_limit
  | urlseed_wait_retry
  | listen_queue_size
  | mixed_mode_algorithm
  | max_peerlist_size
  | max_paused_peerlist_size
  | lock_files
  | disk_io_read_mode
  | disk_io_write_mode
  | low_prio_disk
  | cache_size
  | use_read_cache
  | cache_buffer_chunk_size
  | allowed_fast_set_size
  | read_cache_line_size
  | allow_reordered_disk_operations
  | active_downloads
  | active_limit
  | active_seeds
  | choking_algorithm
  | disk_cache_algorithm
  | announce_double_nat
  | local_download_rate_limit
  | local_upload_rate_limit
  | other (field : Nat)
deriving DecidableEq

namespace Setting

def key : Setting → String
  | half_open_limit => "half_open_limit"
  | allow_multiple_connections_per_ip => "allow_multiple_connections_per_ip"
  | use_disk_read_ahead => "use_disk_read_ahead"
  | disable_hash_checks => "disable_hash_checks"
  | peer_timeout => "peer_timeout"
  | announce_to_all_tiers => "announce_to_all_tiers"
  | download_rate_limit => "download_rate_limit"
  | upload_rate_limit => "upload_rate_limit"
  | unchoke_slots_limit => "unchoke_slots_limit"
  | urlseed_wait_retry => "urlseed_wait_retry"
  | listen_queue_size => "listen_queue_size"
  | max_peerlist_size => "max_peerlist_size"
  | max_paused_peerlist_size => "max_paused_peerlist_size"
  | lock_files => "lock_files"
  | disk_io_read_mode => "disk_io_read_mode"
  | disk_io_write_mode => "disk_io_write_mode"
  | low_prio_disk => "low_prio_disk"
  | cache_size => "cache_size"
  | use_read_cache => "use_read_cache"
  | cache_buffer_chunk_size => "cache_buffer_chunk_size"
  | allowed_fast_set_size => "allowed_fast_set_size"
  | read_cache_line_size => "read_cache_line_size"
  | allow_reordered_disk_operations => "allow_reordered_disk_operations"
  | active_downloads => "active_downloads"
  | active_limit => "active_limit"
  | active_seeds => "active_seeds"
  | _ => ""

end Setting

structure SessionSettings where
  value : Setting → Int
  user_agent : QByteArray

def SessionSettings.set (s : SessionSettings) (f : Setting) (n : Int) : SessionSettings :=
  { s with value := Function.update s.value f n }

/-- `libtorrent::ip_filter`: the flags of every IPv4 address. -/
abbrev IpFilterFlags := UInt32 → UInt32

def add_rule (start last flags : UInt32) (f : IpFilterFlags) : IpFilterFlags :=
  fun address => if start ≤ address ∧ address ≤ last then flags else f address

structure ProxySettings where
  hostname : QByteArray
  username : QByteArray
  password : QByteArray
  type : UInt8
  port : UInt16
  proxy_hostnames : Bool
  proxy_peer_connections : Bool
deriving DecidableEq

structure SessionState where
  settings : SessionSettings
  ipFilter : IpFilterFlags
  proxy : ProxySettings

structure FilterRow where
  first : UInt32 × UInt32 × UInt32 × UInt32
  last : UInt32 × UInt32 × UInt32 × UInt32
  flags : UInt32

/-- `fopen`, seen from the base folder, and the lines of which `fscanf` reads all nine
numbers, up to the first other one. -/
class FilterFile where
  rows : QString → QByteArray → Option (List FilterRow)

/-- What `update_rate_settings` and `set_settings` make of the values they are given. A
`connection_speed` below zero is never in force, so a copy of it is not changed. -/
def taken (f : Setting) (n : Int) : Int :=
  match f with
  | .half_open_limit => if n ≤ 0 then 2 ^ 31 - 1 else n
  | .download_rate_limit | .upload_rate_limit | .local_download_rate_limit
  | .local_upload_rate_limit => if n < 0 then 0 else n
  | .cache_buffer_chunk_size => if n ≤ 0 then 1 else n
  | _ => n

structure SettingsManager where
  dataDir : QString
  settings : Settings
  session : SessionState
  /-- As `update_rate_settings` leaves them. -/
  local_limits : 0 ≤ session.settings.value .local_download_rate_limit ∧
    0 ≤ session.settings.value .local_upload_rate_limit
  listen_port : Int
  ipFilterFileName : QString
  max_connections_per_torrent : Int
  useProxy : Bool
  ps : ProxySettings
  DTInstallPath : QString

namespace SettingsManager
variable (m : SettingsManager)

def set_ip_filter (f : IpFilterFlags) : SettingsManager :=
  { m with session := { m.session with ipFilter := f }, local_limits := m.local_limits }

def set_proxy (ps : ProxySettings) : SettingsManager :=
  { m with session := { m.session with proxy := ps }, local_limits := m.local_limits }

end SettingsManager

inductive FieldType where
  | int
  | bool
  | intBool

def FieldType.ofVariant : FieldType → QVariant → Int
  | int, v => v.toInt
  | bool, v => if v.toBool then 1 else 0
  | intBool, v => if v.toInt = 0 then 0 else 1

/-- A statement of `readSettings`. The default may depend on the size of the cache,
as it is by then. -/
inductive ReadStep where
  | setting (f : Setting) (type : FieldType) (defalt : Int → QVariant)
  | fixed (f : Setting) (n : Int)
  | userAgent
  | listenPort
  | ipFilter
  | maxConnections
  | proxy
  | installPath

structure Reading where
  s_settings : SessionSettings
  baseDir : QString
  manager : SettingsManager

namespace Reading
open QApplicationSettings

def read (r : Reading) (group key : String) (defalt : QVariant) : QVariant × Reading :=
  let (v, stored) := value r.manager.settings group.toList key.toList defalt
  (v, { r with manager := { r.manager with settings := stored } })

section
variable (r : Reading) (group key : String) (defalt : QVariant)

@[simp] theorem s_settings_read : (r.read group key defalt).2.s_settings = r.s_settings := rfl

@[simp] theorem baseDir_read : (r.read group key defalt).2.baseDir = r.baseDir := rfl

@[simp] theorem session_read : (r.read group key defalt).2.manager.session = r.manager.session := rfl

@[simp] theorem ps_read : (r.read group key defalt).2.manager.ps = r.manager.ps := rfl

end

end Reading

def userAgentText : QByteArray := literal "CuteTorrent 0.9.2.8"

def filterAddress (a : UInt32 × UInt32 × UInt32 × UInt32) : UInt32 :=
  (a.1 <<< 24) + (a.2.1 <<< 16) + (a.2.2.1 <<< 8) + a.2.2.2

/-- Flags up to 127 block. -/
def filterOf (rows : List FilterRow) : IpFilterFlags :=
  rows.foldl (fun fil row =>
    add_rule (filterAddress row.first) (filterAddress row.last) (if row.flags ≤ 127 then 1 else 0) fil)
    fun _ => 0

namespace ReadStep

def plainInt (f : Setting) (defalt : Int) : ReadStep := setting f .int fun _ => .int defalt

def plainBool (f : Setting) (defalt : Bool) : ReadStep := setting f .bool fun _ => .bool defalt

def readProxy (r : Reading) : Reading :=
  let hostname := r.read "Torrent" "proxy_hostname" (.string [])
  let port := hostname.2.read "Torrent" "proxy_port" (.int 0)
  let type := port.2.read "Torrent" "proxy_type" (.int 0)
  let username := type.2.read "Torrent" "proxy_username" (.string [])
  let password := username.2.read "Torrent" "proxy_password" (.string [])
  let r := password.2
  let ps := { r.manager.ps with
    hostname := cString (toUtf8 hostname.1.toString)
    port := UInt16.ofInt port.1.toInt
    type := UInt8.ofInt type.1.toInt
    username := cString (toUtf8 username.1.toString)
    password := cString (toUtf8 password.1.toString) }
  { r with manager := { r.manager with ps := ps }.set_proxy ps }

def run [FilterFile] (r : Reading) : ReadStep → Reading
  | setting f type defalt =>
    let (v, r) := r.read "Torrent" f.key (defalt (r.s_settings.value .cache_size))
    { r with s_settings := r.s_settings.set f (type.ofVariant v) }
  | fixed f n => { r with s_settings := r.s_settings.set f n }
  | userAgent => { r with s_settings := { r.s_settings with user_agent := userAgentText } }
  | listenPort =>
    let (v, r) := r.read "Torrent" "listen_port" (.int 6103)
    { r with manager := { r.manager with listen_port := v.toInt } }
  | ipFilter =>
    let (v, r) := r.read "Torrent" "ip_filter_filename" (.string [])
    let r := { r with manager := { r.manager with ipFilterFileName := v.toString } }
    match FilterFile.rows r.baseDir (cString (toLatin1 v.toString)) with
    | some rows =>
      { r with manager := r.manager.set_ip_filter (filterOf rows) }
    | none => r
  | maxConnections =>
    let (v, r) := r.read "Torrent" "max_connections_per_torrent" (.int 50)
    { r with manager := { r.manager with max_connections_per_torrent := v.toInt } }
  | proxy =>
    let (v, r) := r.read "Torrent" "useProxy" (.bool false)
    let r := { r with manager := { r.manager with useProxy := v.toBool } }
    if v.toBool then readProxy r else r
  | installPath =>
    let (v, r) := r.read "DT" "DTInstallPath" (.string [])
    { r with manager := { r.manager with DTInstallPath := v.toString } }

end ReadStep

namespace SettingsManager
open ReadStep QApplicationSettings

/-- The statements of `readSettings` behind the base folder, in their order. -/
def readSteps : List ReadStep :=
  [plainInt .half_open_limit 0x7fffffff, plainBool .allow_multiple_connections_per_ip true,
    listenPort, plainBool .use_disk_read_ahead true, plainBool .disable_hash_checks false,
    plainInt .peer_timeout 120, plainBool .announce_to_all_tiers true,
    plainInt .download_rate_limit 0, plainInt .upload_rate_limit 0, fixed .torrent_connect_boost 15,
    plainInt .unchoke_slots_limit 8, plainInt .urlseed_wait_retry 30, plainInt .listen_queue_size 30,
    -- `peer_proportional`
    fixed .mixed_mode_algorithm 1,
    plainInt .max_peerlist_size 4000, plainInt .max_paused_peerlist_size 4000, ipFilter,
    maxConnections, proxy, plainBool .lock_files false, plainInt .disk_io_read_mode 0,
    plainInt .disk_io_write_mode 0, plainBool .low_prio_disk false] ++
  plainInt .cache_size 2048 ::
  [setting .use_read_cache .intBool fun size => .int (if 0 < size then 1 else 0),
    setting .cache_buffer_chunk_size .int fun size => .int (size.tdiv 100),
    plainInt .allowed_fast_set_size 10, plainInt .read_cache_line_size 40,
    plainBool .allow_reordered_disk_operations true, plainInt .active_downloads (-1),
    plainInt .active_limit (-1), plainInt .active_seeds (-1),
    -- `auto_expand_choker` and `avoid_readback`
    fixed .choking_algorithm 1, fixed .disk_cache_algorithm 2, userAgent, installPath,
    fixed .announce_double_nat 1]

def baseFolder (p : Platform) (m : SettingsManager) : QString :=
  let baseDir := (value m.settings "System".toList "BaseDir".toList (.string [])).1.toString
  p.toNativeSeparators (if baseDir = [] then m.dataDir else baseDir)

/-- Without a base folder the folder of the program is stored as one. -/
def enterBaseDir (p : Platform) (m : SettingsManager) : Reading :=
  let (v, stored) := value m.settings "System".toList "BaseDir".toList (.string [])
  let stored := if v.toString = [] then
      setValue stored "System".toList "BaseDir".toList (.string m.dataDir)
    else stored
  ⟨m.session.settings, baseFolder p m, { m with settings := stored }⟩

section
variable [FilterFile] (p : Platform)

def readSettings (m : SettingsManager) : SessionSettings × SettingsManager :=
  let r := readSteps.foldl run (enterBaseDir p m)
  (r.s_settings, r.manager)

/-- `session::set_settings` -/
def updateSettings (m : SettingsManager) (settings : SessionSettings) : SettingsManager :=
  { m with
    session := { m.session with
      settings := { settings with value := fun f => taken f (settings.value f) } }
    local_limits := by
      simp only [taken]
      constructor <;> split <;> omega }

/-- The torrents are not part of the state. -/
def pefromTask (m : SettingsManager) (t : SchedulerTask) : SettingsManager :=
  let (current, m) := readSettings p m
  match t.iType with
  | .limitUpload => updateSettings m (current.set .upload_rate_limit t.limit)
  | .limitDownload => updateSettings m (current.set .download_rate_limit t.limit)
  | _ => m

end
end SettingsManager

/-! ### What a statement reads and writes -/

open QApplicationSettings

def look (s : Settings) (key : String) (defalt : QVariant) : QVariant :=
  (value s "Torrent".toList key.toList defalt).1

theorem look_congr {s s' : Settings} {key : String}
    (h : stored s' "Torrent".toList key.toList = stored s "Torrent".toList key.toList)
    (defalt : QVariant) : look s' key defalt = look s key defalt := by
  rw [look, look, value, value, h]
  split_ifs <;> rfl

namespace ReadStep

def keys : ReadStep → List String
  | setting f _ _ => [f.key]
  | listenPort => ["listen_port"]
  | ipFilter => ["ip_filter_filename"]
  | maxConnections => ["max_connections_per_torrent"]
  | proxy => ["useProxy", "proxy_hostname", "proxy_port", "proxy_type", "proxy_username", "proxy_password"]
  | _ => []

def fields : ReadStep → List Setting
  | setting f _ _ => [f]
  | fixed f _ => [f]
  | _ => []

def keepsSession : ReadStep → Bool
  | ipFilter => false
  | proxy => false
  | _ => true

def valueIn (s : Settings) (size : Int) : ReadStep → Option Int
  | setting f type defalt => some (type.ofVariant (look s f.key (defalt size)))
  | fixed _ n => some n
  | _ => none

theorem stored_read_of_ne (r : Reading) {key key' : String} (h : key' ≠ key) (defalt : QVariant) :
    stored (r.read "Torrent" key defalt).2.manager.settings "Torrent".toList key'.toList =
      stored r.manager.settings "Torrent".toList key'.toList :=
  stored_value_of_ne (fun heq => h (String.toList_inj.mp heq)) _ _

theorem readProxy_eq (r : Reading) : readProxy r = { r with manager := (readProxy r).manager } := by
  rw [readProxy]
  simp only [Reading.s_settings_read, Reading.baseDir_read]

theorem stored_readProxy (r : Reading) {key : String} (hhost : key ≠ "proxy_hostname")
    (hport : key ≠ "proxy_port") (htype : key ≠ "proxy_type") (huser : key ≠ "proxy_username")
    (hpass : key ≠ "proxy_password") :
    stored (readProxy r).manager.settings "Torrent".toList key.toList =
      stored r.manager.settings "Torrent".toList key.toList := by
  rw [readProxy]
  dsimp only [SettingsManager.set_proxy]
  rw [stored_read_of_ne _ hpass, stored_read_of_ne _ huser, stored_read_of_ne _ htype,
    stored_read_of_ne _ hport, stored_read_of_ne _ hhost]

theorem valueIn_congr {step : ReadStep} {s s' : Settings} (h : ∀ key ∈ step.keys,
    stored s' "Torrent".toList key.toList = stored s "Torrent".toList key.toList) (size : Int) :
    step.valueIn s' size = step.valueIn s size := by
  cases step with
  | setting f type defalt =>
    have hkey := h f.key (by simp [keys])
    rw [valueIn, valueIn, look_congr hkey]
  | _ => rfl

def storedProxy (s : Settings) (ps : ProxySettings) : ProxySettings :=
  { ps with
    hostname := cString (toUtf8 (look s "proxy_hostname" (.string [])).toString)
    port := UInt16.ofInt (look s "proxy_port" (.int 0)).toInt
    type := UInt8.ofInt (look s "proxy_type" (.int 0)).toInt
    username := cString (toUtf8 (look s "proxy_username" (.string [])).toString)
    password := cString (toUtf8 (look s "proxy_password" (.string [])).toString) }

theorem read_fst (r : Reading) (key : String) (defalt : QVariant) :
    (r.read "Torrent" key defalt).1 = look r.manager.settings key defalt := rfl

theorem look_read_of_ne (r : Reading) {key key' : String} (h : key' ≠ key) (defalt defalt' : QVariant) :
    look (r.read "Torrent" key defalt).2.manager.settings key' defalt' =
      look r.manager.settings key' defalt' :=
  look_congr (stored_read_of_ne r h defalt) defalt'

theorem session_readProxy (r : Reading) : (readProxy r).manager.session =
    { r.manager.session with proxy := storedProxy r.manager.settings r.manager.ps } := by
  rw [readProxy]
  dsimp only [SettingsManager.set_proxy]
  rw [storedProxy]
  simp only [read_fst, Reading.session_read, Reading.ps_read]
  rw [look_read_of_ne _ (show "proxy_port" ≠ "proxy_hostname" by decide),
    look_read_of_ne _ (show "proxy_type" ≠ "proxy_port" by decide),
    look_read_of_ne _ (show "proxy_type" ≠ "proxy_hostname" by decide),
    look_read_of_ne _ (show "proxy_username" ≠ "proxy_type" by decide),
    look_read_of_ne _ (show "proxy_username" ≠ "proxy_port" by decide),
    look_read_of_ne _ (show "proxy_username" ≠ "proxy_hostname" by decide),
    look_read_of_ne _ (show "proxy_password" ≠ "proxy_username" by decide),
    look_read_of_ne _ (show "proxy_password" ≠ "proxy_type" by decide),
    look_read_of_ne _ (show "proxy_password" ≠ "proxy_port" by decide),
    look_read_of_ne _ (show "proxy_password" ≠ "proxy_hostname" by decide)]

theorem storedProxy_congr {s s' : Settings} (h : ∀ key ∈ proxy.keys.tail,
    stored s' "Torrent".toList key.toList = stored s "Torrent".toList key.toList) (ps : ProxySettings) :
    storedProxy s' ps = storedProxy s ps := by
  rw [storedProxy, storedProxy, look_congr (h "proxy_hostname" (by simp [keys])),
    look_congr (h "proxy_port" (by simp [keys])), look_congr (h "proxy_type" (by simp [keys])),
    look_congr (h "proxy_username" (by simp [keys])), look_congr (h "proxy_password" (by simp [keys]))]

def filterName (s : Settings) : QByteArray :=
  cString (toLatin1 (look s "ip_filter_filename" (.string [])).toString)

/-- The size of the cache is settled, or will be before a default depends on it. -/
def Settled (size : Int) (r : Reading) (steps : List ReadStep) : Prop :=
  (r.s_settings.value .cache_size = size ∧ .cache_size ∉ steps.flatMap fields) ∨
    ∃ before step after, steps = before ++ step :: after ∧
      (∀ s ∈ before ++ [step], ∀ stored n, s.valueIn stored n = s.valueIn stored size) ∧
      .cache_size ∈ step.fields ∧ step.valueIn r.manager.settings size = some size

theorem Settled.head {r : Reading} {step : ReadStep} {size : Int} {steps : List ReadStep}
    (h : Settled size r (step :: steps)) :
    step.valueIn r.manager.settings (r.s_settings.value .cache_size) =
      step.valueIn r.manager.settings size := by
  rcases h with ⟨hsize, -⟩ | ⟨before, settling, after, heq, hplain, -⟩
  · rw [hsize]
  · refine hplain step ?_ _ _
    cases before with
    | nil => simp [(List.cons.inj heq).1]
    | cons first before => simp [(List.cons.inj heq).1]

section
variable [FilterFile] {r : Reading} {step : ReadStep}

theorem session_run_ipFilter (r : Reading) : (run r ipFilter).manager.session =
    { r.manager.session with
      ipFilter := ((FilterFile.rows r.baseDir (filterName r.manager.settings)).map filterOf).getD
        r.manager.session.ipFilter } := by
  simp only [run]
  change (match FilterFile.rows r.baseDir (filterName r.manager.settings) with
    | some rows => _
    | none => _ : Reading).manager.session = _
  cases FilterFile.rows r.baseDir (filterName r.manager.settings) <;> rfl

theorem session_run_proxy (r : Reading) : (run r proxy).manager.session =
    { r.manager.session with
      proxy := if (look r.manager.settings "useProxy" (.bool false)).toBool = true then
          storedProxy r.manager.settings r.manager.ps
        else r.manager.session.proxy } := by
  have hstored : storedProxy (r.read "Torrent" "useProxy" (.bool false)).2.manager.settings
      r.manager.ps = storedProxy r.manager.settings r.manager.ps := by
    refine storedProxy_congr (fun key hkey => stored_read_of_ne r ?_ _) _
    rintro rfl
    exact absurd hkey (by decide)
  rw [run]
  dsimp only
  rw [read_fst]
  split_ifs
  · rw [session_readProxy]
    exact congrArg (fun ps => { r.manager.session with proxy := ps }) hstored
  · rfl

theorem stored_run {key : String} (h : key ∉ step.keys) :
    stored (run r step).manager.settings "Torrent".toList key.toList =
      stored r.manager.settings "Torrent".toList key.toList := by
  cases step with
  | setting f type defalt => exact stored_read_of_ne r (by simpa [keys] using h) _
  | fixed f n => rfl
  | userAgent => rfl
  | listenPort => exact stored_read_of_ne r (by simpa [keys] using h) _
  | ipFilter =>
    refine Eq.trans ?_ (stored_read_of_ne r (show key ≠ "ip_filter_filename" by simpa [keys] using h)
      (.string []))
    simp only [run]
    split <;> rfl
  | maxConnections => exact stored_read_of_ne r (by simpa [keys] using h) _
  | proxy =>
    simp only [keys, List.mem_cons, List.not_mem_nil, or_false, not_or] at h
    obtain ⟨huse, hhost, hport, htype, huser, hpass⟩ := h
    refine Eq.trans ?_ (stored_read_of_ne r huse (.bool false))
    rw [run]
    dsimp only
    split
    · exact stored_readProxy _ hhost hport htype huser hpass
    · rfl
  | installPath =>
    have hgroup := find_value_of_ne (show "Torrent".toList ≠ "DT".toList by decide) r.manager.settings
      "DTInstallPath".toList (.string [])
    change ((Assoc.find _ _).bind _).getD _ = _
    exact congrArg (fun m => (Option.bind m (Assoc.find key.toList)).getD .invalid) hgroup

/-- A statement that sets something in the session changes the manager alone. -/
theorem run_eq_of_sets (r : Reading) {step : ReadStep} (h : step.keepsSession = false) :
    ∃ manager, run r step = { r with manager := manager } := by
  cases step with
  | ipFilter =>
    simp only [run]
    split <;> exact ⟨_, rfl⟩
  | proxy =>
    simp only [run]
    split
    · exact ⟨_, readProxy_eq _⟩
    · exact ⟨_, rfl⟩
  | _ => cases h

theorem value_run_of_not_mem {f : Setting} (h : f ∉ step.fields) :
    (run r step).s_settings.value f = r.s_settings.value f := by
  cases step with
  | setting g type defalt => exact Function.update_of_ne (by simpa [fields] using h) _ _
  | fixed g n => exact Function.update_of_ne (by simpa [fields] using h) _ _
  | ipFilter =>
    obtain ⟨manager, hrun⟩ := run_eq_of_sets r (show ipFilter.keepsSession = false from rfl)
    rw [hrun]
  | proxy =>
    obtain ⟨manager, hrun⟩ := run_eq_of_sets r (show proxy.keepsSession = false from rfl)
    rw [hrun]
  | _ => rfl

theorem value_run_of_mem {f : Setting} (h : f ∈ step.fields) : some ((run r step).s_settings.value f) =
    step.valueIn r.manager.settings (r.s_settings.value .cache_size) := by
  cases step with
  | setting g type defalt =>
    obtain rfl : f = g := by simpa [fields] using h
    exact congrArg some (Function.update_self _ _ _)
  | fixed g n =>
    obtain rfl : f = g := by simpa [fields] using h
    exact congrArg some (Function.update_self _ _ _)
  | _ => exact absurd h (by simp [fields])

theorem Settled.tail {size : Int} {steps : List ReadStep} (h : Settled size r (step :: steps))
    (hkeys : ((step :: steps).flatMap keys).Nodup) (hfields : ((step :: steps).flatMap fields).Nodup) :
    Settled size (run r step) steps := by
  rw [List.flatMap_cons, List.nodup_append] at hkeys hfields
  rcases h with ⟨hsize, hout⟩ | ⟨before, settling, after, heq, hplain, hfield, hvalue⟩
  · rw [List.flatMap_cons, List.mem_append, not_or] at hout
    exact .inl ⟨(value_run_of_not_mem hout.1).trans hsize, hout.2⟩
  · cases before with
    | nil =>
      obtain ⟨rfl, rfl⟩ := List.cons.inj heq
      have hnow := value_run_of_mem (r := r) hfield
      rw [hplain step (by simp), hvalue] at hnow
      exact .inl ⟨Option.some.inj hnow, fun hin => hfields.2.2 _ hfield _ hin rfl⟩
    | cons first before =>
      obtain ⟨rfl, rfl⟩ := List.cons.inj heq
      refine .inr ⟨before, settling, after, rfl, fun s hs => hplain s (List.mem_cons_of_mem _ hs),
        hfield, ?_⟩
      rw [← hvalue]
      refine valueIn_congr (fun key hkey => stored_run fun hin => ?_) size
      exact hkeys.2.2 key hin key (List.mem_flatMap.mpr ⟨settling, by simp, hkey⟩) rfl

/-- Statements that read and write nothing twice give each field what the settings
file says. -/
theorem value_foldl_run {steps : List ReadStep} (hkeys : (steps.flatMap keys).Nodup)
    (hfields : (steps.flatMap fields).Nodup) {size : Int} (hsize : Settled size r steps)
    (f : Setting) : (steps.foldl run r).s_settings.value f =
      ((steps.find? fun step => decide (f ∈ step.fields)).bind
        (valueIn r.manager.settings size)).getD (r.s_settings.value f) := by
  induction steps generalizing r with
  | nil => rfl
  | cons step steps ih =>
    have hown := hsize.head
    have hrest := hsize.tail hkeys hfields
    rw [List.flatMap_cons, List.nodup_append] at hkeys hfields
    obtain ⟨-, hkeys, hkeysne⟩ := hkeys
    obtain ⟨-, hfields, hfieldsne⟩ := hfields
    rw [List.foldl_cons, ih hkeys hfields hrest]
    by_cases hf : f ∈ step.fields
    · have hnone : steps.find? (fun step => decide (f ∈ step.fields)) = none := by
        refine List.find?_eq_none.mpr fun step' hstep' => ?_
        rw [decide_eq_true_eq]
        exact fun hf' => hfieldsne f hf f (List.mem_flatMap.mpr ⟨step', hstep', hf'⟩) rfl
      have hfind : (step :: steps).find? (fun step => decide (f ∈ step.fields)) = some step :=
        List.find?_cons_of_pos (decide_eq_true hf)
      rw [hnone, hfind, Option.bind_none, Option.getD_none, Option.bind_some, ← hown,
        ← value_run_of_mem hf, Option.getD_some]
    · have hfind : (step :: steps).find? (fun step => decide (f ∈ step.fields)) =
          steps.find? fun step => decide (f ∈ step.fields) :=
        List.find?_cons_of_neg (by simpa using hf)
      rw [hfind, value_run_of_not_mem hf]
      cases hfound : steps.find? fun step => decide (f ∈ step.fields) with
      | none => rfl
      | some step' =>
        have hmem := List.mem_of_find?_eq_some hfound
        rw [Option.bind_some, Option.bind_some, valueIn_congr fun key hkey => stored_run fun hin =>
          hkeysne key hin key (List.mem_flatMap.mpr ⟨step', hmem, hkey⟩) rfl]

theorem stored_foldl_run {steps : List ReadStep} {key : String} (h : key ∉ steps.flatMap keys) :
    stored (steps.foldl run r).manager.settings "Torrent".toList key.toList =
      stored r.manager.settings "Torrent".toList key.toList := by
  induction steps generalizing r with
  | nil => rfl
  | cons step steps ih =>
    rw [List.flatMap_cons, List.mem_append, not_or] at h
    rw [List.foldl_cons, ih h.2, stored_run h.1]

theorem session_run (h : step.keepsSession = true) :
    (run r step).manager.session = r.manager.session := by
  cases step with
  | ipFilter => cases h
  | proxy => cases h
  | _ => rfl

theorem baseDir_run (r : Reading) (step : ReadStep) : (run r step).baseDir = r.baseDir := by
  cases h : step.keepsSession with
  | false =>
    obtain ⟨manager, hrun⟩ := run_eq_of_sets r h
    rw [hrun]
  | true =>
    cases step with
    | ipFilter => cases h
    | proxy => cases h
    | _ => rfl

theorem ps_run (h : step.keepsSession = true ∨ step = ipFilter) :
    (run r step).manager.ps = r.manager.ps := by
  cases step with
  | ipFilter =>
    simp only [run]
    split <;> rfl
  | proxy => simp [keepsSession] at h
  | _ => rfl

theorem foldl_run_of_frame {β : Type} (view : Reading → β) {steps : List ReadStep}
    (h : ∀ step ∈ steps, ∀ r, view (run r step) = view r) (r : Reading) :
    view (steps.foldl run r) = view r := by
  induction steps generalizing r with
  | nil => rfl
  | cons step steps ih =>
    rw [List.foldl_cons, ih fun s hs => h s (List.mem_cons_of_mem _ hs), h step List.mem_cons_self]

theorem user_agent_run (r : Reading) (step : ReadStep) :
    (run r step).s_settings.user_agent = userAgentText ∨
      (run r step).s_settings.user_agent = r.s_settings.user_agent := by
  cases h : step.keepsSession with
  | false =>
    obtain ⟨manager, hrun⟩ := run_eq_of_sets r h
    exact .inr (by rw [hrun])
  | true =>
    cases step with
    | userAgent => exact .inl rfl
    | ipFilter => cases h
    | proxy => cases h
    | _ => exact .inr rfl

theorem user_agent_foldl_run {steps : List ReadStep} (h : r.s_settings.user_agent = userAgentText) :
    (steps.foldl run r).s_settings.user_agent = userAgentText := by
  induction steps generalizing r with
  | nil => exact h
  | cons step steps ih => exact ih ((user_agent_run r step).elim id fun heq => heq.trans h)

end
end ReadStep

namespace SettingsManager
open ReadStep

/-! ### What the settings file says -/

def cacheSize (s : Settings) : Int := (look s "cache_size" (.int 2048)).toInt

/-- The value that the settings file, with the defaults, has for a field; none for a
field that `readSettings` leaves as it is. -/
def storedValue (s : Settings) (f : Setting) : Option Int :=
  (readSteps.find? fun step => decide (f ∈ step.fields)).bind (valueIn s (cacheSize s))

theorem nodup_keys_readSteps : (readSteps.flatMap keys).Nodup := by decide +kernel

theorem nodup_fields_readSteps : (readSteps.flatMap fields).Nodup := by decide +kernel

theorem stored_enterBaseDir (p : Platform) (m : SettingsManager) (key : QString) :
    stored (enterBaseDir p m).manager.settings "Torrent".toList key =
      stored m.settings "Torrent".toList key := by
  have hgroup : "Torrent".toList ≠ "System".toList := by decide
  have hvalue := find_value_of_ne hgroup m.settings "BaseDir".toList (.string [])
  rw [enterBaseDir]
  dsimp only
  split_ifs
  · rw [stored, stored, setValue, Assoc.find_insert_of_ne hgroup, hvalue]
  · rw [stored, stored, hvalue]

section
variable [FilterFile] (p : Platform) (m : SettingsManager)

theorem value_readSettings (f : Setting) : (readSettings p m).1.value f =
    (storedValue m.settings f).getD (m.session.settings.value f) := by
  have hlook : ∀ key defalt, look (enterBaseDir p m).manager.settings key defalt =
      look m.settings key defalt := fun key defalt =>
    look_congr (stored_enterBaseDir p m key.toList) defalt
  have hsettled : Settled (cacheSize m.settings) (enterBaseDir p m) readSteps := by
    refine .inr ⟨_, _, _, rfl, ?_, List.mem_singleton_self _, ?_⟩
    · intro step hstep stored n
      simp only [List.cons_append, List.nil_append, List.mem_cons, List.not_mem_nil, or_false] at hstep
      rcases hstep with rfl | rfl | rfl | rfl | rfl | rfl | rfl | rfl | rfl | rfl | rfl | rfl | rfl |
        rfl | rfl | rfl | rfl | rfl | rfl | rfl | rfl | rfl | rfl | rfl <;> rfl
    · exact congrArg (fun v => some (QVariant.toInt v)) (hlook "cache_size" (.int 2048))
  have hvalue := value_foldl_run nodup_keys_readSteps nodup_fields_readSteps hsettled f
  rw [readSettings]
  refine hvalue.trans ?_
  rw [storedValue]
  cases readSteps.find? fun step => decide (f ∈ step.fields) with
  | none => rfl
  | some step =>
    rw [Option.bind_some, Option.bind_some, valueIn_congr fun key _ => stored_enterBaseDir p m key.toList]
    rfl

theorem user_agent_readSettings : (readSettings p m).1.user_agent = userAgentText := by
  have hsplit : readSteps = (readSteps.take 34 ++ [userAgent]) ++ readSteps.drop 35 := rfl
  rw [readSettings, hsplit, List.foldl_append, List.foldl_append]
  exact user_agent_foldl_run rfl

theorem session_readSettings : (readSettings p m).2.session =
    { m.session with
      ipFilter := ((FilterFile.rows (baseFolder p m) (filterName m.settings)).map
        filterOf).getD m.session.ipFilter
      proxy := if (look m.settings "useProxy" (.bool false)).toBool = true then
          storedProxy m.settings m.ps
        else m.session.proxy } := by
  have hsplit : readSteps = readSteps.take 16 ++ ipFilter :: maxConnections :: proxy ::
      readSteps.drop 19 := rfl
  have hbefore : ∀ step ∈ readSteps.take 16, step.keepsSession = true := by decide
  have hafter : ∀ step ∈ readSteps.drop 19, step.keepsSession = true := by decide
  -- the state before the filter
  obtain ⟨r, hr⟩ : ∃ r, (readSteps.take 16).foldl run (enterBaseDir p m) = r := ⟨_, rfl⟩
  have hsession : r.manager.session = m.session := by
    rw [← hr]
    exact foldl_run_of_frame (fun r => r.manager.session) (fun s hs _ => session_run (hbefore s hs)) _
  have hps : r.manager.ps = m.ps := by
    rw [← hr]
    exact foldl_run_of_frame (fun r => r.manager.ps) (fun s hs _ => ps_run (.inl (hbefore s hs))) _
  have hdir : r.baseDir = baseFolder p m := by
    rw [← hr]
    exact foldl_run_of_frame Reading.baseDir (fun s _ r => baseDir_run r s) _
  have hstored : ∀ key : String, key ∉ (readSteps.take 16).flatMap keys →
      stored r.manager.settings "Torrent".toList key.toList =
        stored m.settings "Torrent".toList key.toList := by
    intro key hkey
    rw [← hr, stored_foldl_run hkey, stored_enterBaseDir]
  have hname : filterName r.manager.settings = filterName m.settings := by
    rw [filterName, filterName, look_congr (hstored "ip_filter_filename" (by decide +kernel))]
  -- the state before the proxy
  obtain ⟨q, hq⟩ : ∃ q, run (run r ipFilter) maxConnections = q := ⟨_, rfl⟩
  have hproxy : ∀ key ∈ proxy.keys, stored q.manager.settings "Torrent".toList key.toList =
      stored m.settings "Torrent".toList key.toList := by
    intro key hkey
    rw [← hq, stored_run, stored_run, hstored]
    · revert key
      decide +kernel
    · revert key
      decide +kernel
    · revert key
      decide +kernel
  have hqsession : q.manager.session = (run r ipFilter).manager.session := by
    rw [← hq]
    exact session_run rfl
  have hqps : q.manager.ps = m.ps := by
    rw [← hq, ps_run (.inl rfl), ps_run (.inr rfl), hps]
  have huse : look q.manager.settings "useProxy" (.bool false) = look m.settings "useProxy" (.bool false) :=
    look_congr (hproxy "useProxy" (by simp [keys])) _
  have hread : (readSettings p m).2 =
      ((readSteps.drop 19).foldl run (run q proxy)).manager := by
    rw [readSettings]
    dsimp only
    rw [← hq, ← hr, ← List.foldl_cons, ← List.foldl_cons, ← List.foldl_cons, ← List.foldl_append,
      ← hsplit]
  rw [hread, foldl_run_of_frame (fun r => r.manager.session)
    (fun s hs _ => session_run (hafter s hs)), session_run_proxy, huse, hqps,
    storedProxy_congr (fun key hkey => hproxy key (List.mem_of_mem_tail hkey)), hqsession,
    session_run_ipFilter, hsession, hdir, hname]

end
end SettingsManager
end CuteTorrent
