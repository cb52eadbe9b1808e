import CuteTorrent.SessionSettings

/-! The rate limits that the tasks of the scheduler set, one task after another. -/
namespace CuteTorrent
open QApplicationSettings

namespace SettingsManager
open ReadStep

def limitOf : TaskType → Option Setting
  | .limitUpload => some .upload_rate_limit
  | .limitDownload => some .download_rate_limit
  | _ => none

def lastLimit (type : TaskType) (tasks : List SchedulerTask) : Option Int :=
  ((tasks.filter fun t => decide (t.iType = type)).getLast?).map SchedulerTask.limit

/-- The session as the tasks should have left it: each limit is that of the last task
of its kind, and nothing else is new. -/
def expected (s : SessionState) (tasks : List SchedulerTask) : SessionState :=
  let download := (lastLimit .limitDownload tasks).getD (s.settings.value .download_rate_limit)
  let upload := (lastLimit .limitUpload tasks).getD (s.settings.value .upload_rate_limit)
  { s with settings := (s.settings.set .download_rate_limit download).set .upload_rate_limit upload }

def limited (s : SessionState) (t : SchedulerTask) : SessionState :=
  match limitOf t.iType with
  | some f => { s with settings := s.settings.set f t.limit }
  | none => s

/-- The limit is not below zero. What `readSettings` reads besides is in force: the
values of the settings file, as the session takes them, the filter, where its file
can be opened, and the proxy, where one is used. -/
structure OthersInForce [FilterFile] (p : Platform) (m : SettingsManager) (t : SchedulerTask) :
    Prop where
  limit : ∀ own, limitOf t.iType = some own → 0 ≤ t.limit
  values : ∀ own, limitOf t.iType = some own → ∀ f n, f ≠ own → storedValue m.settings f = some n →
    m.session.settings.value f = taken f n
  user_agent : ∀ own, limitOf t.iType = some own → m.session.settings.user_agent = userAgentText
  filter : ∀ rows, FilterFile.rows (baseFolder p m) (filterName m.settings) = some rows →
    m.session.ipFilter = filterOf rows
  proxy : (look m.settings "useProxy" (.bool false)).toBool = true →
    m.session.proxy = storedProxy m.settings m.ps

theorem lastLimit_concat (type : TaskType) (tasks : List SchedulerTask) (t : SchedulerTask) :
    lastLimit type (tasks ++ [t]) = if t.iType = type then some t.limit else lastLimit type tasks := by
  rw [lastLimit, List.filter_append]
  by_cases h : t.iType = type
  · have hone : [t].filter (fun t => decide (t.iType = type)) = [t] :=
      List.filter_cons_of_pos (decide_eq_true h)
    rw [if_pos h, hone, List.getLast?_concat]
    rfl
  · have hnone : [t].filter (fun t => decide (t.iType = type)) = [] :=
      List.filter_cons_of_neg (by simpa using h)
    rw [if_neg h, hnone, List.append_nil]
    rfl

theorem set_set_comm (s : SessionSettings) {f g : Setting} (h : f ≠ g) (a b : Int) :
    (s.set f a).set g b = (s.set g b).set f a := by
  rw [SessionSettings.set, SessionSettings.set, SessionSettings.set, SessionSettings.set]
  exact congrArg (fun v => (⟨v, s.user_agent⟩ : SessionSettings)) (Function.update_comm h a b s.value)

theorem set_set_self (s : SessionSettings) (f : Setting) (a b : Int) :
    (s.set f a).set f b = s.set f b := by
  simp only [SessionSettings.set, Function.update_idem]

theorem expected_nil (s : SessionState) : expected s [] = s := by
  have hself : ∀ f, s.settings.set f (s.settings.value f) = s.settings := fun f =>
    congrArg (fun v => (⟨v, s.settings.user_agent⟩ : SessionSettings))
      (Function.update_eq_self f s.settings.value)
  have hsettings : (s.settings.set .download_rate_limit (s.settings.value .download_rate_limit)).set
      .upload_rate_limit (s.settings.value .upload_rate_limit) = s.settings := by
    rw [hself, hself]
  exact congrArg (fun settings => { s with settings := settings }) hsettings

theorem expected_concat (s : SessionState) (tasks : List SchedulerTask) (t : SchedulerTask) :
    expected s (tasks ++ [t]) = limited (expected s tasks) t := by
  rw [expected, lastLimit_concat, lastLimit_concat, limited]
  cases ht : t.iType with
  | limitUpload =>
    exact congrArg (fun settings => { s with settings := settings }) (set_set_self _ _ _ _).symm
  | limitDownload =>
    -- the upload limit, set last, makes way for the new download limit
    have hswap : ∀ a b, ((s.settings.set .download_rate_limit a).set .upload_rate_limit b).set
        .download_rate_limit t.limit =
          (s.settings.set .download_rate_limit t.limit).set .upload_rate_limit b := by
      intro a b
      rw [set_set_comm _ (show Setting.upload_rate_limit ≠ .download_rate_limit by decide),
        set_set_self]
    exact congrArg (fun settings => { s with settings := settings }) (hswap _ _).symm
  | _ => rfl

/-! ### One task -/

section
variable {s : Settings} {f : Setting}

theorem storedValue_eq_none_iff : storedValue s f = none ↔ f ∉ readSteps.flatMap fields := by
  rw [storedValue]
  cases hfind : readSteps.find? fun step => decide (f ∈ step.fields) with
  | none =>
    refine iff_of_true rfl fun hmem => ?_
    obtain ⟨step, hstep, hf⟩ := List.mem_flatMap.mp hmem
    exact List.find?_eq_none.mp hfind step hstep (decide_eq_true hf)
  | some step =>
    have hf : f ∈ step.fields := by simpa using List.find?_some hfind
    refine iff_of_false ?_ fun h => h (List.mem_flatMap.mpr ⟨step, List.mem_of_find?_eq_some hfind, hf⟩)
    rw [Option.bind_some]
    cases step with
    | setting g type defalt => exact Option.some_ne_none _
    | fixed g n => exact Option.some_ne_none _
    | _ => exact absurd hf List.not_mem_nil

theorem mem_fields_of_taken {n : Int} (h : taken f n ≠ n) (hdownload : f ≠ .local_download_rate_limit)
    (hupload : f ≠ .local_upload_rate_limit) : f ∈ readSteps.flatMap fields := by
  have hfour : f ∈ [Setting.half_open_limit, .download_rate_limit, .upload_rate_limit,
      .cache_buffer_chunk_size] := by
    unfold taken at h
    split at h
    · exact List.mem_cons_self
    · simp
    · simp
    · exact absurd rfl hdownload
    · exact absurd rfl hupload
    · simp
    · exact absurd rfl h
  have hfields : ∀ g ∈ [Setting.half_open_limit, .download_rate_limit, .upload_rate_limit,
      .cache_buffer_chunk_size], g ∈ readSteps.flatMap fields := by decide +kernel
  exact hfields f hfour

theorem taken_of_storedValue_none (m : SettingsManager) (h : storedValue s f = none) :
    taken f (m.session.settings.value f) = m.session.settings.value f := by
  by_contra hne
  have hout := storedValue_eq_none_iff.mp h
  by_cases hdownload : f = .local_download_rate_limit
  · subst hdownload
    exact hne (if_neg (not_lt.mpr m.local_limits.1))
  · by_cases hupload : f = .local_upload_rate_limit
    · subst hupload
      exact hne (if_neg (not_lt.mpr m.local_limits.2))
    · exact hout (mem_fields_of_taken hne hdownload hupload)

theorem taken_limit_iff {type : TaskType} {own : Setting} (h : limitOf type = some own) (n : Int) :
    taken own n = n ↔ 0 ≤ n := by
  have htaken : taken own n = if n < 0 then 0 else n := by
    cases type with
    | limitUpload =>
      obtain rfl := Option.some.inj h
      rfl
    | limitDownload =>
      obtain rfl := Option.some.inj h
      rfl
    | _ => cases h
  rw [htaken]
  split_ifs <;> omega

end

section
variable [FilterFile] (p : Platform) (m : SettingsManager) (t : SchedulerTask)

theorem session_pefromTask_limit {own : Setting} (h : limitOf t.iType = some own) :
    (pefromTask p m t).session = { (readSettings p m).2.session with
      settings := ⟨fun f => taken f (((readSettings p m).1.set own t.limit).value f),
        (readSettings p m).1.user_agent⟩ } := by
  unfold pefromTask
  generalize readSettings p m = q
  cases ht : t.iType with
  | limitUpload =>
    rw [ht] at h
    obtain rfl := Option.some.inj h
    rfl
  | limitDownload =>
    rw [ht] at h
    obtain rfl := Option.some.inj h
    rfl
  | _ =>
    rw [ht] at h
    cases h

theorem session_pefromTask_other (h : limitOf t.iType = none) :
    (pefromTask p m t).session = (readSettings p m).2.session := by
  unfold pefromTask
  generalize readSettings p m = q
  cases ht : t.iType with
  | limitUpload =>
    rw [ht] at h
    cases h
  | limitDownload =>
    rw [ht] at h
    cases h
  | _ => rfl

theorem filter_proxy_same_iff {s : SessionSettings} :
    ({ (readSettings p m).2.session with settings := s } : SessionState) =
        { m.session with settings := s } ↔
      (∀ rows, FilterFile.rows (baseFolder p m) (filterName m.settings) = some rows →
        m.session.ipFilter = filterOf rows) ∧
      ((look m.settings "useProxy" (.bool false)).toBool = true →
        m.session.proxy = storedProxy m.settings m.ps) := by
  rw [session_readSettings]
  simp only [SessionState.mk.injEq, true_and]
  refine and_congr ?_ ?_
  · cases FilterFile.rows (baseFolder p m) (filterName m.settings) with
    | none => simp
    | some rows =>
      rw [Option.map_some, Option.getD_some]
      exact ⟨fun h _ hrows => Option.some.inj hrows ▸ h.symm, fun h => (h rows rfl).symm⟩
  · split_ifs with huse
    · exact ⟨fun h _ => h.symm, fun h => (h huse).symm⟩
    · exact iff_of_true rfl fun h => absurd h huse

theorem settings_pefromTask_iff {own : Setting} (h : limitOf t.iType = some own) :
    (⟨fun f => taken f (((readSettings p m).1.set own t.limit).value f),
        (readSettings p m).1.user_agent⟩ : SessionSettings) = m.session.settings.set own t.limit ↔
      0 ≤ t.limit ∧ (∀ f n, f ≠ own → storedValue m.settings f = some n →
        m.session.settings.value f = taken f n) ∧ m.session.settings.user_agent = userAgentText := by
  have hvalue : ∀ f, ((readSettings p m).1.set own t.limit).value f =
      if f = own then t.limit
      else (storedValue m.settings f).getD (m.session.settings.value f) := by
    intro f
    rw [← value_readSettings p m f]
    exact Function.update_apply _ _ _ _
  rw [user_agent_readSettings p m]
  generalize (readSettings p m).1.set own t.limit = new at hvalue ⊢
  constructor
  · intro heq
    have hat : ∀ f, taken f (new.value f) = (m.session.settings.set own t.limit).value f := fun f =>
      congrFun (congrArg SessionSettings.value heq) f
    refine ⟨?_, fun f n hf hn => ?_, (congrArg SessionSettings.user_agent heq).symm⟩
    · have hown := hat own
      rw [hvalue, if_pos rfl] at hown
      exact (taken_limit_iff h t.limit).mp (hown.trans (Function.update_self _ _ _))
    · have hother := hat f
      rw [hvalue, if_neg hf, hn, Option.getD_some] at hother
      exact (hother.trans (Function.update_of_ne hf _ _)).symm
  · rintro ⟨hlimit, hvalues, hagent⟩
    rw [← hagent]
    refine congrArg (fun v => (⟨v, m.session.settings.user_agent⟩ : SessionSettings)) ?_
    funext f
    rw [hvalue]
    by_cases hf : f = own
    · subst hf
      rw [if_pos rfl, Function.update_self]
      exact (taken_limit_iff h t.limit).mpr hlimit
    · rw [if_neg hf, Function.update_of_ne hf]
      cases hn : storedValue m.settings f with
      | none => exact taken_of_storedValue_none m hn
      | some n => exact (hvalues f n hf hn).symm

theorem session_pefromTask_iff : (pefromTask p m t).session = limited m.session t ↔
    OthersInForce p m t := by
  cases h : limitOf t.iType with
  | none =>
    have hlimited : limited m.session t = m.session := by rw [limited, h]
    have hsettings : (readSettings p m).2.session.settings = m.session.settings := by
      rw [session_readSettings]
    have hleft : ({ (readSettings p m).2.session with settings := m.session.settings } : SessionState) =
        (readSettings p m).2.session := by
      rw [← hsettings]
    rw [session_pefromTask_other p m t h, hlimited, ← hleft]
    refine (filter_proxy_same_iff p m).trans ⟨fun hboth => ⟨?_, ?_, ?_, hboth.1, hboth.2⟩,
      fun hforce => ⟨hforce.filter, hforce.proxy⟩⟩
    · exact fun own hown => absurd (h.symm.trans hown) (Option.some_ne_none own).symm
    · exact fun own hown => absurd (h.symm.trans hown) (Option.some_ne_none own).symm
    · exact fun own hown => absurd (h.symm.trans hown) (Option.some_ne_none own).symm
  | some own =>
    have hlimited : limited m.session t =
        { m.session with settings := m.session.settings.set own t.limit } := by rw [limited, h]
    rw [session_pefromTask_limit p m t h, hlimited]
    constructor
    · intro heq
      have hsettings := congrArg SessionState.settings heq
      dsimp only at hsettings
      rw [hsettings] at heq
      obtain ⟨hfilter, hproxy⟩ := (filter_proxy_same_iff p m).mp heq
      obtain ⟨hlimit, hvalues, hagent⟩ := (settings_pefromTask_iff p m t h).mp hsettings
      refine ⟨fun _ _ => hlimit, fun own' hown => ?_, fun _ _ => hagent, hfilter, hproxy⟩
      obtain rfl := Option.some.inj (h.symm.trans hown)
      exact hvalues
    · intro hforce
      rw [(settings_pefromTask_iff p m t h).mpr ⟨hforce.limit own h, hforce.values own h,
        hforce.user_agent own h⟩]
      exact (filter_proxy_same_iff p m).mpr ⟨hforce.filter, hforce.proxy⟩

/-- One task more; the tasks so far are kept beside the manager. -/
def performed (s : SettingsManager × List SchedulerTask) (t : SchedulerTask) :
    SettingsManager × List SchedulerTask := (pefromTask p s.1 t, s.2 ++ [t])

/-- The limits compose exactly along the tasks that find the rest in force. -/
theorem limits_compose_iff (tasks : List SchedulerTask) :
    Runs.Throughout (performed p) (fun s => s.1.session = expected m.session s.2) (m, []) tasks ↔
      Runs.Along (performed p) (fun s t => OthersInForce p s.1 t) (m, []) tasks := by
  have hstep : ∀ (s : SettingsManager × List SchedulerTask) (t : SchedulerTask),
      s.1.session = expected m.session s.2 →
      ((performed p s t).1.session = expected m.session (performed p s t).2 ↔
        OthersInForce p s.1 t) := by
    intro s t hs
    have hone := session_pefromTask_iff p s.1 t
    rw [hs, ← expected_concat] at hone
    exact hone
  exact Runs.throughout_iff_along hstep (expected_nil m.session).symm tasks

end

@[reducible] def noFilterFile : FilterFile := ⟨fun _ _ => none⟩

def startedManager : SettingsManager where
  dataDir := "/opt/".toList
  settings := []
  session := ⟨⟨fun f => taken f ((storedValue [] f).getD 0), userAgentText⟩, fun _ => 0,
    ⟨[], [], [], 0, 0, true, true⟩⟩
  local_limits := by decide +kernel
  listen_port := 6103
  ipFilterFileName := []
  max_connections_per_torrent := 50
  useProxy := false
  ps := ⟨[], [], [], 0, 0, true, true⟩
  DTInstallPath := []

def downloadTask : SchedulerTask := ⟨.limitDownload, "slow".toList, 100, 0⟩

def uploadTask : SchedulerTask := ⟨.limitUpload, "quiet".toList, 50, 60⟩

/-- The second task brings the stored download limit back. -/
theorem upload_task_lifts_download_limit :
    ¬ (@performed noFilterFile .unix (@performed noFilterFile .unix (startedManager, []) downloadTask)
      uploadTask).1.session = expected startedManager.session [downloadTask, uploadTask] := by
  intro h
  have hvalue := congrArg (fun s => s.settings.value .download_rate_limit) h
  revert hvalue
  decide +kernel

end SettingsManager
end CuteTorrent
