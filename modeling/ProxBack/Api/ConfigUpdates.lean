import ProxBack.Lib.Overlay
import ProxBack.Store.Legacy
import ProxBack.Store.Policy
import ProxBack.Store.Retention
import ProxBack.Store.Settings

/-! The two requests that change some fields of a record: the PATCH of a job, and the PUT of the
settings. Both read everything, lay the fields they name over it, and write everything. -/
namespace ProxBack.Api
open Lib Text Store

structure JobRecord where
  name : String
  kind : String
  targetID : String
  schedule : Schedule
  retention : RetentionPolicy
  policy : JobPolicy
  enabled : Bool
  sources : List JobSource
  tagFilter : String

def storedSchedule (s : Schedule) : Schedule := decodeSchedule (encodeSchedule s)

structure StoredJob (m : CaseMap) extends JobRecord where
  schedule_stored : storedSchedule schedule = schedule
  policy_normal : policy.normalized m = policy

/-- `jobRequest`; a field that is left out stays as it is. -/
structure JobRequest where
  name : Option String
  kind : Option String
  targetID : Option String
  schedule : Option Schedule
  retention : Option RetentionPolicy
  policy : Option JobPolicy
  enabled : Option Bool
  sources : Option (List JobSource)
  tagFilter : Option String

def normalizeTagFilter (m : CaseMap) (v : String) : String := m.fold (trimmed v)

section
variable (m : CaseMap) (cron : Cron)

def JobRequest.apply (body : JobRequest) (job : JobRecord) : JobRecord where
  name := (body.name.map trimmed).getD job.name
  kind := body.kind.getD job.kind
  targetID := body.targetID.getD job.targetID
  schedule := (body.schedule.map Schedule.normalized).getD job.schedule
  retention := body.retention.getD job.retention
  policy := (body.policy.map fun p => p.normalized m).getD job.policy
  enabled := body.enabled.getD job.enabled
  sources := body.sources.getD job.sources
  tagFilter := (body.tagFilter.map (normalizeTagFilter m)).getD job.tagFilter

/-- The checks of `handlePatchJob`, but for the one that the target exists. -/
def JobRecord.valid (job : JobRecord) : Bool :=
  job.name ≠ "" ∧ (validateJob job.kind job.sources job.tagFilter).isNone ∧
    (job.schedule.validate cron).isNone ∧ job.retention.validate.toBool ∧
    (job.policy.validate m job.kind).isNone

@[simp] theorem storedSchedule_storedSchedule (s : Schedule) :
    storedSchedule (storedSchedule s) = storedSchedule s := by
  cases hkind : s.kind <;>
    simp [storedSchedule, decodeSchedule, encodeSchedule, marshal, unmarshal, Schedule.normalized, hkind,
      trimSpace_trimSpace, normalizeWeekdays_normalizeWeekdays]

/-- `UpdateJob` writes all mutable fields. -/
def updateJob (job : JobRecord) : StoredJob m where
  toJobRecord :=
    { job with schedule := storedSchedule job.schedule, policy := job.policy.normalized m }
  schedule_stored := storedSchedule_storedSchedule _
  policy_normal := job.policy.normalized_normalized m

def patchJob : Overlay (StoredJob m) JobRequest Unit where
  keys := [()]
  copy _ a _ := a
  overlay body job :=
    if (body.apply m job.toJobRecord).valid m cron then some (updateJob m (body.apply m job.toJobRecord))
    else none

variable {m cron}

def jobColumn {V : Type} [DecidableEq V] (get : JobRecord → V) (asked : JobRequest → Option V)
    (h : ∀ (body : JobRequest) (job : StoredJob m),
      get (updateJob m (body.apply m job.toJobRecord)).toJobRecord =
        (asked body).getD (get job.toJobRecord)) : Overlay.Column (patchJob m cron) where
  Value := V
  key := ()
  get job := get job.toJobRecord
  asked := asked
  mem := List.mem_singleton_self _
  get_copy _ _ := rfl
  get_copy_ne _ hne := absurd rfl hne
  get_overlay body job v hv := by
    have hoverlay : (if (body.apply m job.toJobRecord).valid m cron then
        some (updateJob m (body.apply m job.toJobRecord)) else none) = some v := hv
    split at hoverlay
    · cases hoverlay
      exact h body job
    · cases hoverlay

@[simp]
theorem storedSchedule_normalized (s : Schedule) : storedSchedule s.normalized = storedSchedule s := by
  cases hkind : s.kind <;>
    simp [storedSchedule, decodeSchedule, encodeSchedule, marshal, unmarshal, Schedule.normalized, hkind,
      trimSpace_trimSpace, normalizeWeekdays_normalizeWeekdays]

variable (m cron) in
def jobColumns : List (Overlay.Column (patchJob m cron)) :=
  [jobColumn JobRecord.name (fun body => body.name.map trimmed) fun _ _ => rfl,
    jobColumn JobRecord.kind JobRequest.kind fun _ _ => rfl,
    jobColumn JobRecord.targetID JobRequest.targetID fun _ _ => rfl,
    jobColumn JobRecord.schedule (fun body => body.schedule.map storedSchedule) fun body job => by
      show storedSchedule ((body.schedule.map Schedule.normalized).getD job.schedule) = _
      cases body.schedule with
      | none => exact job.schedule_stored
      | some s => exact storedSchedule_normalized s,
    jobColumn JobRecord.retention JobRequest.retention fun _ _ => rfl,
    jobColumn JobRecord.policy (fun body => body.policy.map fun p => p.normalized m) fun body job => by
      show ((body.policy.map fun p => p.normalized m).getD job.policy).normalized m = _
      cases body.policy with
      | none => exact job.policy_normal
      | some p => exact p.normalized_normalized m,
    jobColumn JobRecord.enabled JobRequest.enabled fun _ _ => rfl,
    jobColumn JobRecord.sources JobRequest.sources fun _ _ => rfl,
    jobColumn JobRecord.tagFilter (fun body => body.tagFilter.map (normalizeTagFilter m)) fun _ _ => rfl]

end

structure SettingsRequest where
  serverName : Option String
  concurrency : Option Int
  webhookURL : Option String
  notifyOn : Option String
  uploadConcurrency : Option Int
  compression : Option String
  uploadLimitMbps : Option Int

namespace SettingsRequest

def apply (body : SettingsRequest) (current : Settings) : Settings where
  serverName := (body.serverName.map trimmed).getD current.serverName
  concurrency := body.concurrency.getD current.concurrency
  webhookURL := (body.webhookURL.map trimmed).getD current.webhookURL
  notifyOn := body.notifyOn.getD current.notifyOn
  uploadConcurrency := body.uploadConcurrency.getD current.uploadConcurrency
  compression := body.compression.getD current.compression
  uploadLimitMbps := body.uploadLimitMbps.getD current.uploadLimitMbps

/-- The checks of `handlePutSettings`. -/
def valid (webhookOK : String → Bool) (body : SettingsRequest) : Bool :=
  body.concurrency.all (fun n => 1 ≤ n) ∧ body.webhookURL.all (fun url => webhookOK (trimmed url)) ∧
    body.notifyOn.all validNotifyOn ∧ body.uploadConcurrency.all validUploadConcurrency ∧
    body.compression.all validCompression ∧ body.uploadLimitMbps.all validUploadLimitMbps

end SettingsRequest

section
variable (webhookOK : String → Bool)

def putSettings : Overlay StoredSettings SettingsRequest SettingKey where
  keys := SettingKey.all
  copy := StoredSettings.set
  overlay body current :=
    if body.valid webhookOK then some (.ofSettings (body.apply current.toSettings)) else none

variable {webhookOK}

def settingColumn {V : Type} [DecidableEq V] (key : SettingKey) (get : Settings → V)
    (asked : SettingsRequest → Option V) (hset : ∀ a b, get (Settings.set key a b) = get a)
    (hset_ne : ∀ k, k ≠ key → ∀ a b, get (Settings.set k a b) = get b)
    (h : ∀ (body : SettingsRequest) (st : StoredSettings), body.valid webhookOK = true →
      get (body.apply st.toSettings).saved = (asked body).getD (get st.toSettings)) :
    Overlay.Column (putSettings webhookOK) where
  Value := V
  key := key
  get st := get st.toSettings
  asked := asked
  mem := key.mem_all
  get_copy _ _ := hset _ _
  get_copy_ne k hk _ _ := hset_ne k hk _ _
  get_overlay body st v hv := by
    have hoverlay : (if body.valid webhookOK then
        some (StoredSettings.ofSettings (body.apply st.toSettings)) else none) = some v := hv
    split at hoverlay
    · rename_i hvalid
      cases hoverlay
      exact h body st hvalid
    · cases hoverlay

def askedServerName (body : SettingsRequest) : Option String :=
  body.serverName.map fun v => orDefault (fun v => v ≠ "") defaultServerName (trimmed v)

theorem SettingsRequest.of_valid {body : SettingsRequest} (h : body.valid webhookOK = true) :
    body.concurrency.all (fun n => 0 < n) = true ∧ body.notifyOn.all validNotifyOn = true ∧
      body.uploadConcurrency.all validUploadConcurrency = true ∧
      body.compression.all validCompression = true ∧
      body.uploadLimitMbps.all validUploadLimitMbps = true := by
  obtain ⟨hconcurrency, -, hrest⟩ := of_decide_eq_true h
  refine ⟨?_, hrest⟩
  cases hbody : body.concurrency with
  | none => rfl
  | some n =>
    rw [hbody] at hconcurrency
    exact decide_eq_true (of_decide_eq_true hconcurrency : (1 : Int) ≤ n)

@[simp] theorem saved_serverName (body : SettingsRequest) (st : StoredSettings) :
    (body.apply st.toSettings).saved.serverName = (askedServerName body).getD st.serverName := by
  have hstored := congrArg Settings.serverName st.saved_eq
  simp only [SettingsRequest.apply, Settings.saved, askedServerName] at hstored ⊢
  cases body.serverName with
  | none => exact hstored
  | some v => rfl

variable (webhookOK) in
def settingColumns : List (Overlay.Column (putSettings webhookOK)) :=
  [settingColumn .serverName Settings.serverName askedServerName (fun _ _ => rfl)
      (fun k hk _ _ => by cases k <;> first | rfl | exact absurd rfl hk)
      fun body st _ => saved_serverName body st,
    settingColumn .concurrency Settings.concurrency SettingsRequest.concurrency (fun _ _ => rfl)
      (fun k hk _ _ => by cases k <;> first | rfl | exact absurd rfl hk)
      fun _ st h => orDefault_getD (fun n : Int => decide (0 < n)) defaultConcurrency
        (congrArg Settings.concurrency st.saved_eq) (SettingsRequest.of_valid h).1,
    settingColumn .webhookURL Settings.webhookURL (fun body => body.webhookURL.map trimmed)
      (fun _ _ => rfl) (fun k hk _ _ => by cases k <;> first | rfl | exact absurd rfl hk)
      fun _ _ _ => rfl,
    settingColumn .notifyOn Settings.notifyOn SettingsRequest.notifyOn (fun _ _ => rfl)
      (fun k hk _ _ => by cases k <;> first | rfl | exact absurd rfl hk)
      fun _ st h => orDefault_getD validNotifyOn defaultNotifyOn
        (congrArg Settings.notifyOn st.saved_eq) (SettingsRequest.of_valid h).2.1,
    settingColumn .uploadConcurrency Settings.uploadConcurrency SettingsRequest.uploadConcurrency
      (fun _ _ => rfl) (fun k hk _ _ => by cases k <;> first | rfl | exact absurd rfl hk)
      fun _ st h => orDefault_getD validUploadConcurrency defaultUploadConcurrency
        (congrArg Settings.uploadConcurrency st.saved_eq) (SettingsRequest.of_valid h).2.2.1,
    settingColumn .compression Settings.compression SettingsRequest.compression (fun _ _ => rfl)
      (fun k hk _ _ => by cases k <;> first | rfl | exact absurd rfl hk)
      fun _ st h => orDefault_getD validCompression defaultCompression
        (congrArg Settings.compression st.saved_eq) (SettingsRequest.of_valid h).2.2.2.1,
    settingColumn .uploadLimitMbps Settings.uploadLimitMbps SettingsRequest.uploadLimitMbps
      (fun _ _ => rfl) (fun k hk _ _ => by cases k <;> first | rfl | exact absurd rfl hk)
      fun _ st h => orDefault_getD validUploadLimitMbps defaultUploadLimitMbps
        (congrArg Settings.uploadLimitMbps st.saved_eq) (SettingsRequest.of_valid h).2.2.2.2]

end

section
open Overlay

/-- In runs in which each statement that writes finds the fields that its request does not name
as the request had read them. -/
theorem no_update_lost (m : CaseMap) (cron : Cron) (webhookOK : String → Bool) :
    (∀ (blank before : StoredJob m) ts w,
      ((patchJob m cron).service blank).system.Run
        (Service.Heeding (Undisturbed (jobColumns m cron))) ⟨before, []⟩ ts w →
      Quiet w → ∀ c ∈ jobColumns m cron, c.Kept before w.shared (patches w)) ∧
    ∀ (before : StoredSettings) ts w,
      ((putSettings webhookOK).service .default).system.Run
        (Service.Heeding (Undisturbed (settingColumns webhookOK))) ⟨before, []⟩ ts w →
      Quiet w → ∀ c ∈ settingColumns webhookOK, c.Kept before w.shared (patches w) :=
  ⟨fun _ _ _ _ hrun hquiet => kept_of_quiet (List.nodup_singleton _) hrun hquiet,
    fun _ _ _ hrun hquiet => kept_of_quiet SettingKey.nodup_all hrun hquiet⟩

def nightly : StoredJob asciiCase :=
  updateJob asciiCase
    ⟨"nightly", "vm", "target1", .manual, ⟨7, 0, 0, 0, 0⟩, .default, true, [⟨"host1", 100, "web", "", []⟩], ""⟩

def disable : JobRequest := ⟨none, none, none, none, none, none, some false, none, none⟩

def rename : JobRequest := ⟨some "weekly", none, none, none, none, none, none, none, none⟩

def patchesInTurn : List (Turn JobRequest Access) :=
  [.arrive disable, .arrive rename, .advance 0 (.read true), .advance 0 (.check true),
    .advance 0 (.write .done), .advance 1 (.read true), .advance 1 (.check true),
    .advance 1 (.write .done)]

def rate : SettingsRequest := ⟨none, none, none, none, none, none, some 100⟩

def workers : SettingsRequest := ⟨none, some 3, none, none, none, none, none⟩

def wholePut (i : Nat) : List (Turn SettingsRequest Access) :=
  List.replicate 7 (.advance i (.read true)) ++ .advance i (.check true) ::
    List.replicate 7 (.advance i (.write .done))

theorem no_update_lost_in_turn : ∃ w w',
    ((patchJob asciiCase plainCron).service nightly).system.Run
      (Service.Heeding (Undisturbed (jobColumns asciiCase plainCron))) ⟨nightly, []⟩ patchesInTurn w ∧
    (∀ c ∈ jobColumns asciiCase plainCron, c.Kept nightly w.shared [disable, rename]) ∧
    ((putSettings fun _ => true).service .default).system.Run
      (Service.Heeding (Undisturbed (settingColumns fun _ => true))) ⟨.default, []⟩
      (.arrive rate :: .arrive workers :: (wholePut 0 ++ wholePut 1)) w' ∧
    ∀ c ∈ settingColumns (fun _ => true), c.Kept .default w'.shared [rate, workers] := by
  obtain ⟨w, hfollow, hrequests⟩ : ∃ w,
      ((patchJob asciiCase plainCron).service nightly).system.follow patchesInTurn ⟨nightly, []⟩ = some w ∧
      w.requests = [disable, rename].map Phase.returned := ⟨_, rfl, rfl⟩
  obtain ⟨w', hfollow', hrequests'⟩ : ∃ w',
      ((putSettings fun _ => true).service .default).system.follow
        (.arrive rate :: .arrive workers :: (wholePut 0 ++ wholePut 1)) ⟨.default, []⟩ = some w' ∧
      w'.requests = [rate, workers].map Phase.returned := ⟨_, rfl, rfl⟩
  obtain ⟨hquiet, hpatches⟩ := quiet_of_returned hrequests
  obtain ⟨hquiet', hpatches'⟩ := quiet_of_returned hrequests'
  have hrun := System.run_of_trail
    (p := fun x => decide (Service.Heeding (Undisturbed (jobColumns asciiCase plainCron)) x.1 x.2))
    (fun _ _ h => of_decide_eq_true h) hfollow (by decide +kernel)
  have hrun' := System.run_of_trail
    (p := fun x => decide (Service.Heeding (Undisturbed (settingColumns fun _ => true)) x.1 x.2))
    (fun _ _ h => of_decide_eq_true h) hfollow' (by decide +kernel)
  have hkept := no_update_lost asciiCase plainCron fun _ => true
  refine ⟨w, w', hrun, ?_, hrun', ?_⟩
  · rw [← hpatches]
    exact hkept.1 nightly nightly _ w hrun hquiet
  · rw [← hpatches']
    exact hkept.2 .default _ w' hrun' hquiet'

/-- Both read before either writes: the job stays enabled. -/
theorem crossed_updates_lose : ∃ w,
    ((patchJob asciiCase plainCron).service nightly).system.Run (fun _ _ => True) ⟨nightly, []⟩
      [.arrive disable, .arrive rename, .advance 0 (.read true), .advance 1 (.read true),
        .advance 0 (.check true), .advance 1 (.check true), .advance 0 (.write .done),
        .advance 1 (.write .done)] w ∧
    Quiet w ∧ ∃ c ∈ jobColumns asciiCase plainCron, ¬ c.Kept nightly w.shared (patches w) := by
  obtain ⟨w, hrun, hrequests, henabled⟩ : ∃ w,
      ((patchJob asciiCase plainCron).service nightly).system.Run (fun _ _ => True) ⟨nightly, []⟩
        [.arrive disable, .arrive rename, .advance 0 (.read true), .advance 1 (.read true),
          .advance 0 (.check true), .advance 1 (.check true), .advance 0 (.write .done),
          .advance 1 (.write .done)] w ∧
      w.requests = [disable, rename].map Phase.returned ∧ w.shared.enabled = true :=
    ⟨_, System.run_of_follow (fun _ _ _ => trivial) rfl, rfl, rfl⟩
  obtain ⟨hquiet, hpatches⟩ := quiet_of_returned hrequests
  refine ⟨w, hrun, hquiet, (jobColumns asciiCase plainCron).get ⟨6, by decide⟩, List.get_mem _ _, ?_⟩
  rw [hpatches]
  rintro (⟨p, hp, hasked⟩ | ⟨hnone, -⟩)
  · have hasked' : p.enabled = some w.shared.enabled := hasked
    rw [henabled] at hasked'
    rcases List.mem_cons.mp hp with rfl | hp
    · cases hasked'
    · cases List.mem_singleton.mp hp
      cases hasked'
  · exact absurd (hnone disable List.mem_cons_self) nofun

end

end ProxBack.Api
