import CuteTorrent.FilterGroups
import CuteTorrent.JsonText
import CuteTorrent.WebSettings

/-! The settings `SettingsAPiController` sends, when they are sent back to it. -/
namespace CuteTorrent
open QApplicationSettings HttpRequestHandler

theorem wrapInt_of_range {n : Int} (h : -2 ^ 31 ≤ n ∧ n < 2 ^ 31) : wrapInt n = n := by
  rw [wrapInt]
  exact Int.bmod_eq_of_le (by omega) (by omega)

theorem wrapInt_range (n : Int) : -2 ^ 31 ≤ wrapInt n ∧ wrapInt n < 2 ^ 31 := by
  have hlo := Int.le_bmod (x := n) (m := 2 ^ 32) (by decide)
  have hhi := Int.bmod_lt (x := n) (m := 2 ^ 32) (by decide)
  rw [wrapInt]
  omega

theorem toInt_range {s : QString} {n : Int} (h : toInt s = some n) : -2 ^ 31 ≤ n ∧ n < 2 ^ 31 := by
  unfold toInt at h
  simp only [Option.ite_none_right_eq_some, Option.some.injEq] at h
  obtain ⟨-, hrange, rfl⟩ := h
  exact hrange

theorem QVariant.toInt_range (v : QVariant) : -2 ^ 31 ≤ v.toInt ∧ v.toInt < 2 ^ 31 := by
  have hzero : -2 ^ 31 ≤ (0 : Int) ∧ (0 : Int) < 2 ^ 31 := by decide
  cases v with
  | bool b => cases b <;> decide
  | int n => exact wrapInt_range n
  | string s =>
    rw [QVariant.toInt]
    cases hs : CuteTorrent.toInt s with
    | none => exact hzero
    | some n => exact CuteTorrent.toInt_range hs
  | invalid => exact hzero
  | list values => exact hzero
  | map entries => exact hzero

namespace SettingsAPiController

def shownValue (s : Settings) (f : String × QVariant) : QVariant :=
  typed f.2 (value s torrentGroup f.1.toList f.2).1

theorem fields_valid : ∀ f ∈ fields, f.2.isValid = true := by
  intro f hf
  simp only [fields, List.mem_cons, List.not_mem_nil, or_false] at hf
  rcases hf with rfl | rfl | rfl | rfl | rfl | rfl | rfl | rfl | rfl | rfl | rfl | rfl | rfl <;> rfl

theorem fields_nodup : (fields.map fun f => f.1.toList).Nodup := by
  decide

theorem typed_valid (d v : QVariant) : (typed d v).isValid = true := by
  unfold typed
  split <;> rfl

theorem typed_typed (d v : QVariant) : typed d (typed d v) = typed d v := by
  cases d with
  | int n => exact congrArg QVariant.int (wrapInt_of_range v.toInt_range)
  | _ => rfl

/-! ### The reply -/

theorem value_congr {s t : Settings} {group key : QString} {d : QVariant} (hd : d.isValid = true)
    (h : stored s group key = stored t group key) : (value s group key d).1 = (value t group key d).1 := by
  rw [value_fst s group key hd, value_fst t group key hd, h]

theorem shownValue_congr {s t : Settings} {f : String × QVariant} (hf : f ∈ fields)
    (h : stored s torrentGroup f.1.toList = stored t torrentGroup f.1.toList) :
    shownValue s f = shownValue t f := by
  rw [shownValue, shownValue, value_congr (fields_valid f hf) h]

/-- A field of the reply shows its setting, and reading the others changes nothing of it. -/
theorem find_readFields {fs : List (String × QVariant)} (hnodup : (fs.map fun f => f.1.toList).Nodup)
    (hvalid : ∀ f ∈ fs, f.2.isValid = true) {f : String × QVariant} (hf : f ∈ fs) (s : Settings) :
    Assoc.find f.1.toList (readFields fs s).1 = some (replyValue f.1 (shownValue s f)) := by
  induction fs generalizing s with
  | nil => exact absurd hf List.not_mem_nil
  | cons g fs ih =>
    obtain ⟨key, defalt⟩ := g
    obtain ⟨hnew, hnodup⟩ := List.nodup_cons.mp hnodup
    rw [readFields]
    dsimp only
    rcases List.mem_cons.mp hf with rfl | hf
    · rw [Assoc.find_insert_self]
      rfl
    · have hmem : f.1.toList ∈ fs.map fun f => f.1.toList := List.mem_map.mpr ⟨f, hf, rfl⟩
      have hne : f.1.toList ≠ key.toList := fun he => by
        rw [he] at hmem
        exact hnew hmem
      rw [Assoc.find_insert_of_ne hne, ih hnodup (fun g hg => hvalid g (List.mem_cons_of_mem _ hg)) hf,
        shownValue, shownValue, value_congr (hvalid f (List.mem_cons_of_mem _ hf)) (stored_value_of_ne hne s defalt)]

theorem find_readFields_of_ne {group : QString} (hgroup : group ≠ torrentGroup)
    (fs : List (String × QVariant)) (s : Settings) :
    Assoc.find group (readFields fs s).2 = Assoc.find group s := by
  induction fs generalizing s with
  | nil => rfl
  | cons g fs ih =>
    obtain ⟨name, defalt⟩ := g
    rw [readFields]
    dsimp only
    rw [ih, find_value_of_ne hgroup]

theorem stored_typed (d v : QVariant) : Json.Stored (typed d v) := by
  unfold typed
  split
  · have hrange := v.toInt_range
    rw [Json.Stored]
    omega
  · trivial
  · trivial

theorem stored_replyValue (key : String) (d v : QVariant) : Json.Stored (replyValue key (typed d v)) := by
  unfold replyValue
  split_ifs
  · have hrange := wrapInt_range ((typed d v).toInt * 16)
    rw [Json.Stored]
    omega
  · exact stored_typed d v

theorem stored_insert {entries : List (QString × QVariant)} (h : Json.Stored (.map entries))
    (key : QString) {v : QVariant} (hv : Json.Stored v) :
    Json.Stored (.map (Assoc.insert key v entries)) := by
  rw [Json.Stored, Json.storedMap_iff] at h ⊢
  refine ⟨Assoc.pairwise_insert (fun _ _ => List.lt_asymm) (fun _ _ _ => List.lt_trans) h.1 key v,
    fun e he => ?_⟩
  rcases Assoc.mem_insert he with rfl | he
  · exact hv
  · exact h.2 e he

theorem stored_readFields (fs : List (String × QVariant)) (s : Settings) :
    Json.Stored (.map (readFields fs s).1) := by
  induction fs generalizing s with
  | nil =>
    rw [readFields, Json.Stored]
    exact ⟨List.Pairwise.nil, trivial⟩
  | cons g fs ih =>
    obtain ⟨key, defalt⟩ := g
    rw [readFields]
    exact stored_insert (ih _) _ (stored_replyValue _ _ _)

theorem stored_groupJson [QtHash] (g : GroupForFileFiltering) : Json.Stored (groupJson g) := by
  have hkeys : ["extensions".toList, "name".toList, "path".toList].Pairwise
      fun i j => i ≠ j ∧ ¬ j < i := by decide
  rw [groupJson, Json.Stored]
  exact ⟨hkeys, trivial, trivial, trivial, trivial⟩

/-! ### The same settings, sent back -/

theorem stored_writeFields {fs : List (String × QVariant)}
    (hnodup : (fs.map fun f => f.1.toList).Nodup) {f : String × QVariant} (hf : f ∈ fs)
    (v : String → QVariant) (s : Settings) :
    stored (fs.foldl (fun s f => setValue s torrentGroup f.1.toList (v f.1)) s) torrentGroup
      f.1.toList = v f.1 := by
  induction fs using List.reverseRecOn with
  | nil => exact absurd hf List.not_mem_nil
  | append_singleton fs g ih =>
    rw [List.map_append, List.nodup_append] at hnodup
    rw [List.foldl_append, List.foldl_cons, List.foldl_nil]
    rcases List.mem_append.mp hf with hf | hf
    · have hne : f.1.toList ≠ g.1.toList :=
        hnodup.2.2 _ (List.mem_map.mpr ⟨f, hf, rfl⟩) _ (List.mem_singleton_self _)
      rw [stored_setValue_of_ne _ hne]
      exact ih hnodup.1 hf
    · obtain rfl := List.mem_singleton.mp hf
      exact stored_setValue _ _ _ _

theorem find_writeFields_of_ne {group : QString} (hgroup : group ≠ torrentGroup)
    (settingsVal : QVariant) (s : Settings) :
    Assoc.find group (writeFields settingsVal s) = Assoc.find group s := by
  have hall : ∀ (fs : List (String × QVariant)) (s : Settings), Assoc.find group
      (fs.foldl (fun s f => setValue s torrentGroup f.1.toList
        (storedValue f.1 (settingsVal.member f.1.toList))) s) = Assoc.find group s := by
    intro fs
    induction fs with
    | nil => exact fun s => rfl
    | cons f fs ih =>
      intro s
      rw [List.foldl_cons, ih, setValue, Assoc.find_insert_of_ne hgroup]
  exact hall fields s

theorem default_cacheSize : ∀ f ∈ fields, f.1 = "cache_size" → f.2 = .int 0 := by
  intro f hf hname
  simp only [fields, List.mem_cons, List.not_mem_nil, or_false] at hf
  rcases hf with rfl | rfl | rfl | rfl | rfl | rfl | rfl | rfl | rfl | rfl | rfl | rfl | rfl
  case inr.inr.inr.inr.inr.inr.inr.inl => rfl
  all_goals exact absurd hname (by decide)

/-- What has been shown is stored, and shown again; a cache is counted in pieces of 16. -/
theorem typed_storedValue {f : String × QVariant} (hf : f ∈ fields) {x : QVariant}
    (hx : typed f.2 x = x) (hcache : f.1 = "cache_size" → -2 ^ 27 ≤ x.toInt ∧ x.toInt < 2 ^ 27) :
    typed f.2 (storedValue f.1 (replyValue f.1 x)) = x ∧
      (storedValue f.1 (replyValue f.1 x)).isValid = true := by
  by_cases hname : f.1 = "cache_size"
  · have hbounds := hcache hname
    rw [default_cacheSize f hf hname] at hx ⊢
    have hint : x = .int x.toInt := hx.symm
    have hmul : wrapInt (x.toInt * 16) = x.toInt * 16 := wrapInt_of_range (by omega)
    have hback : (x.toInt * 16).tdiv 16 = x.toInt := Int.mul_tdiv_cancel _ (by decide)
    rw [replyValue, if_pos hname, storedValue, if_pos hname, hmul, QVariant.toInt, hmul, hback]
    refine ⟨?_, rfl⟩
    rw [typed, QVariant.toInt, wrapInt_of_range (by omega)]
    exact hint.symm
  · rw [replyValue, if_neg hname, storedValue, if_neg hname]
    exact ⟨hx, hx ▸ typed_valid _ _⟩

theorem made_of_getFileFilterGroups {s : Settings} {gs : List GroupForFileFiltering}
    (h : getFileFilterGroups s = .ok gs) : ∀ g ∈ gs, g.Made := by
  intro g hg
  obtain ⟨e, -, hread⟩ := (mem_of_filterGroups h g).mp hg
  obtain ⟨_, _, _, _, _, -, rfl⟩ := filterGroup_some_iff.mp hread
  exact GroupForFileFiltering.made_ofText _ _ _

section
variable [QtHash]

def sentBack (g : GroupForFileFiltering) : GroupForFileFiltering := .ofText g.name g.extensionsText g.path

theorem same_sentBack {g : GroupForFileFiltering} (h : g.Made) : g.Same (sentBack g) :=
  ⟨rfl, rfl, fun e => (GroupForFileFiltering.mem_ofText_extensionsText h g.name g.path e).symm⟩

theorem sameGroups_sentBack (s : Settings) {gs : List GroupForFileFiltering} (hmade : ∀ g ∈ gs, g.Made)
    (hdistinct : (gs.map GroupForFileFiltering.name).Nodup)
    (hkeys : ∀ g ∈ gs, g.name ≠ [] ∧ '/' ∉ g.name ∧ '\\' ∉ g.name) (hstorable : ∀ g ∈ gs, g.Storable) :
    ∃ res, getFileFilterGroups (saveFilterGropups s (gs.map sentBack)) = .ok res ∧
      SameGroups gs res := by
  have hsavable : Savable (gs.map sentBack) := by
    refine ⟨fun g hg => ?_, ?_, fun g hg => ?_⟩
    · obtain ⟨g, -, rfl⟩ := List.mem_map.mp hg
      exact GroupForFileFiltering.made_ofText _ _ _
    · rw [List.map_map]
      exact hdistinct
    · obtain ⟨k, hk, rfl⟩ := List.mem_map.mp hg
      exact hkeys k hk
  have hstorable' : ∀ g ∈ gs.map sentBack, g.Storable := by
    intro g hg
    obtain ⟨k, hk, rfl⟩ := List.mem_map.mp hg
    have hkeeps := hstorable k hk
    exact ⟨hkeeps.marks, hkeeps.path, fun e he =>
      hkeeps.extensions e (((same_sentBack (hmade k hk)).2.2 e).mpr he)⟩
  obtain ⟨res, hres, hfirst, hsecond⟩ := (groups_survive_iff s hsavable).mpr hstorable'
  have htrans : ∀ g ∈ gs, ∀ g', (sentBack g).Same g' → g.Same g' := by
    intro g hg g' hsame
    have hback := same_sentBack (hmade g hg)
    exact ⟨hback.1.trans hsame.1, hback.2.1.trans hsame.2.1, fun e =>
      (hback.2.2 e).trans (hsame.2.2 e)⟩
  refine ⟨res, hres, fun g hg => ?_, fun g' hg' => ?_⟩
  · obtain ⟨g', hg', hsame⟩ := hfirst _ (List.mem_map_of_mem hg)
    exact ⟨g', hg', htrans g hg g' hsame⟩
  · obtain ⟨g, hg, hsame⟩ := hsecond g' hg'
    obtain ⟨g, hmem, rfl⟩ := List.mem_map.mp hg
    exact ⟨g, hmem, htrans g hmem g' hsame⟩

end

/-! ### GET, and PUT of what it gave -/

theorem fromCString_serialize (p : Platform) {v : QVariant} (h : (0 : UInt8) ∉ Json.serialize v) :
    p.fromCString (Json.serialize v) = Json.text v := by
  have hwhole : cString (Json.serialize v) = Json.serialize v :=
    (cString_eq_self_iff _).mpr fun b hb hzero => h (hzero ▸ hb)
  rw [Platform.fromCString, hwhole, Json.serialize_eq, Platform.fromStdString_toUtf8]

theorem body_reply (data : QByteArray) :
    ((HttpResponse.initial.setHeader "Content-Type" "application/json").write data).body = data := rfl

section
variable [DataFolder] [Md5] [QtHash] [QtDouble]

def serve (p : Platform) (w : WebWorld) (request : HttpRequest) : Served :=
  @service _ _ _ (sourceJson Json.serialize) p w request .initial

def replyOf (s : Settings) (gs : List GroupForFileFiltering) : QVariant :=
  .map (Assoc.insert filteringGroupsKey (.list (gs.map groupJson)) (readFields fields s).1)

theorem serve_get {p : Platform} {w : WebWorld} {get : HttpRequest}
    (hget : equalsLiteral get.method "GET" = true)
    (haccepted : (CheckCreditinals p w.settings get .initial).1 = true)
    {gs : List GroupForFileFiltering} (hgs : getFileFilterGroups w.settings = .ok gs) :
    (serve p w get).web.settings = (readFields fields (initSettings w.settings).2).2 ∧
      (serve p w get).response.body = Json.serialize (replyOf (initSettings w.settings).2 gs) := by
  have hfile : fileFiltering ≠ torrentGroup := by decide
  have hserver : fileFiltering ≠ serverName := by decide
  have hgroups : getFileFilterGroups (readFields fields (initSettings w.settings).2).2 = .ok gs := by
    rw [getFileFilterGroups, find_readFields_of_ne hfile, find_initSettings hserver]
    exact hgs
  have hgo : ¬ (!true) = true := by decide
  unfold serve service afterCheck
  rw [checkCreditinals_of_accepted haccepted]
  dsimp only
  rw [if_neg hgo, if_pos hget, hgroups]
  dsimp only
  exact ⟨rfl, body_reply _⟩

theorem serve_put {p : Platform} {w : WebWorld} {put : HttpRequest} {s : Settings}
    {gs : List GroupForFileFiltering} (hput : SetsSettings p w put)
    (hbody : put.body = Json.serialize (replyOf s gs)) (hzero : (0 : UInt8) ∉ put.body) :
    (serve p w put).response = .initial ∧ (serve p w put).web.settings =
      saveFilterGropups (writeFields (replyOf s gs) (initSettings w.settings).2) (gs.map sentBack) := by
  let _ := sourceJson Json.serialize
  have hstored : Json.Stored (replyOf s gs) := by
    refine stored_insert (stored_readFields _ _) _ ?_
    rw [Json.Stored, Json.storedList_iff]
    intro v hv
    obtain ⟨g, -, rfl⟩ := List.mem_map.mp hv
    exact stored_groupJson g
  have hparse : QtJson.parse (p.fromCString put.body) = (replyOf s gs, true) := by
    rw [hbody] at hzero ⊢
    rw [fromCString_serialize p hzero]
    exact Json.parse_text hstored
  have hmember : ((replyOf s gs).member filteringGroupsKey).toList.map groupOfJson =
      gs.map sentBack := by
    rw [replyOf, QVariant.member, Assoc.find_insert_self, Option.getD_some, QVariant.toList,
      List.map_map]
    rfl
  have hserve := service_of_setsSettings hput
  rw [hparse, if_pos rfl] at hserve
  dsimp only at hserve
  rw [hmember] at hserve
  unfold serve
  rw [hserve]
  dsimp only
  exact ⟨rfl, rfl⟩

omit [DataFolder] [Md5] [QtDouble] in
/-- A field that a GET shows and a PUT stores is shown as before. -/
theorem shownValue_sentBack (s s' : Settings) (gs : List GroupForFileFiltering) {f : String × QVariant}
    (hf : f ∈ fields) (hcache : f.1 = "cache_size" →
      -2 ^ 27 ≤ (shownValue s f).toInt ∧ (shownValue s f).toInt < 2 ^ 27) :
    shownValue (saveFilterGropups (writeFields (replyOf (initSettings s).2 gs) s') (gs.map sentBack)) f =
      shownValue s f := by
  have hserver : torrentGroup ≠ serverName := by decide
  have hfile : torrentGroup ≠ fileFiltering := by decide
  have hfiltering : ∀ f ∈ fields, f.1.toList ≠ filteringGroupsKey := by decide
  have hsame : shownValue (initSettings s).2 f = shownValue s f :=
    shownValue_congr hf (by rw [stored, stored, find_initSettings hserver])
  have hfind : (replyOf (initSettings s).2 gs).member f.1.toList =
      replyValue f.1 (shownValue s f) := by
    rw [replyOf, QVariant.member, Assoc.find_insert_of_ne (hfiltering f hf),
      find_readFields fields_nodup fields_valid hf, Option.getD_some, hsame]
  have htyped : typed f.2 (shownValue s f) = shownValue s f := typed_typed f.2 _
  obtain ⟨hback, hvalid⟩ := typed_storedValue hf htyped hcache
  have hstored : stored (saveFilterGropups (writeFields (replyOf (initSettings s).2 gs) s')
      (gs.map sentBack)) torrentGroup f.1.toList = storedValue f.1 (replyValue f.1 (shownValue s f)) := by
    rw [stored, saveFilterGropups, Assoc.find_insert_of_ne hfile, ← stored, ← hfind]
    exact stored_writeFields fields_nodup hf
      (fun key => storedValue key ((replyOf (initSettings s).2 gs).member key.toList)) _
  rw [shownValue, value_fst _ _ _ (fields_valid f hf), hstored, if_pos hvalid]
  exact hback

/-- What a GET gave, sent back in a PUT, leaves every setting it shows as it was, and the
groups of file filters, too. -/
theorem put_of_get {p : Platform} {w : WebWorld} {get put : HttpRequest}
    (hget : equalsLiteral get.method "GET" = true)
    (haccepted : (CheckCreditinals p w.settings get .initial).1 = true)
    {gs : List GroupForFileFiltering} (hgs : getFileFilterGroups w.settings = .ok gs)
    (hdistinct : (gs.map GroupForFileFiltering.name).Nodup)
    (hkeys : ∀ g ∈ gs, g.name ≠ [] ∧ '/' ∉ g.name ∧ '\\' ∉ g.name) (hstorable : ∀ g ∈ gs, g.Storable)
    (hcache : -2 ^ 27 ≤ (shownValue w.settings ("cache_size", .int 0)).toInt ∧
      (shownValue w.settings ("cache_size", .int 0)).toInt < 2 ^ 27)
    (hput : SetsSettings p (serve p w get).web put)
    (hbody : put.body = (serve p w get).response.body) (hzero : (0 : UInt8) ∉ put.body) :
    (serve p (serve p w get).web put).response.status = 200 ∧
      (∀ f ∈ fields, shownValue (serve p (serve p w get).web put).web.settings f =
        shownValue w.settings f) ∧
      ∃ res, getFileFilterGroups (serve p (serve p w get).web put).web.settings = .ok res ∧
        SameGroups gs res := by
  obtain ⟨-, hreply⟩ := serve_get hget haccepted hgs
  rw [hreply] at hbody
  obtain ⟨hresponse, hsettings⟩ := serve_put hput hbody hzero
  rw [hresponse, hsettings]
  have hgroups := sameGroups_sentBack
    (writeFields (replyOf (initSettings w.settings).2 gs) (initSettings (serve p w get).web.settings).2)
    (made_of_getFileFilterGroups hgs) hdistinct hkeys hstorable
  refine ⟨rfl, fun f hf => ?_, hgroups⟩
  refine shownValue_sentBack w.settings _ gs hf fun hname => ?_
  obtain rfl : f = ("cache_size", .int 0) := Prod.ext hname (default_cacheSize f hf hname)
  exact hcache

end

section sample
local instance : DataFolder := TorrentManager.plainFolder
local instance : Md5 := sampleMd5
local instance : QtHash := plainHash
local instance : QtDouble := plainDouble

def usedSettings : Settings :=
  saveFilterGropups [(torrentGroup, [("listen_port".toList, .int 6881),
    ("active_downloads".toList, .string "3".toList), ("cache_size".toList, .int 512),
    ("lock_files".toList, .bool false)])] twoGroups

def usedWorld : WebWorld := { openWorld with settings := usedSettings }

def getRequest : HttpRequest := { putRequest "" with method := literal "GET" }

def sentBackRequest : HttpRequest :=
  { putRequest "" with body := (serve .unix usedWorld getRequest).response.body }

theorem groups_usedSettings : getFileFilterGroups usedSettings = .ok twoGroups := by
  rfl

theorem put_of_get_used :
    (serve .unix (serve .unix usedWorld getRequest).web sentBackRequest).response.status = 200 ∧
      (∀ f ∈ fields, shownValue (serve .unix (serve .unix usedWorld getRequest).web
        sentBackRequest).web.settings f = shownValue usedSettings f) ∧
      ∃ res, getFileFilterGroups (serve .unix (serve .unix usedWorld getRequest).web
        sentBackRequest).web.settings = .ok res ∧ SameGroups twoGroups res := by
  have hget : equalsLiteral getRequest.method "GET" = true :=
    decide_eq_true (show cString (literal "GET") = literal "GET" by decide)
  have hput : equalsLiteral sentBackRequest.method "PUT" = true :=
    decide_eq_true (show cString (literal "PUT") = literal "PUT" by decide)
  have hfirst : (CheckCreditinals .unix usedWorld.settings getRequest .initial).1 = true :=
    (checkCreditinals_iff _ _ _ _).mpr fun h => absurd h (by decide)
  have hsettings := (serve_get (p := .unix) hget hfirst groups_usedSettings).1
  have hsecond : (CheckCreditinals .unix (serve .unix usedWorld getRequest).web.settings sentBackRequest
      .initial).1 = true := by
    rw [hsettings]
    exact (checkCreditinals_iff _ _ _ _).mpr fun h => absurd h (by decide)
  have hreply : sentBackRequest.body = (serve .unix usedWorld getRequest).response.body := rfl
  have hzero : (0 : UInt8) ∉ sentBackRequest.body := by
    rw [hreply, (serve_get (p := .unix) hget hfirst groups_usedSettings).2]
    decide +kernel
  exact put_of_get hget hfirst groups_usedSettings savable_twoGroups.distinct savable_twoGroups.keys
    storable_twoGroups (by decide) ⟨.inl hput, hsecond⟩ hreply hzero

end sample

end SettingsAPiController
end CuteTorrent
