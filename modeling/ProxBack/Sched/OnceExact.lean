import ProxBack.Api.Coverage
import ProxBack.Sched.Once

/-! A run that may retry can make a second restore point of a workload: an attempt whose
row could not be written leaves its manifest behind, and the next one starts over. -/
namespace ProxBack.Sched.Execute
open Lib Text Prog Engine Store
open Guest (VmPlan)

section
variable {lower : Char → Char} {e : Engine} {j : BackupJob} {runID : String}

def keptDisk (lower : Char → Char) (exclude : List String) : DiskInfo :=
  ⟨String.ofList ('d' :: (exclude.map fun d => (trimSpace d.toList).map lower).flatten), 1⟩

@[grind =] theorem applyDiskExclusions_kept (exclude : List String) (name : String) :
    applyDiskExclusions lower [keptDisk lower exclude] exclude name =
      .ok [keptDisk lower exclude] := by
  unfold applyDiskExclusions
  split
  · rfl
  have hkept : (keptDisk lower exclude).name.toList.map lower ∉
      exclude.map fun d => (trimSpace d.toList).map lower := by
    intro hmem
    obtain ⟨d, hd, hname⟩ := List.mem_map.mp hmem
    have hlen := congrArg List.length hname
    have hle := (List.sublist_flatten_of_mem hmem).length_le
    rw [← hname] at hle
    simp only [keptDisk, String.toList_ofList, List.length_map, List.length_cons] at hlen hle
    omega
  dsimp only
  rw [List.filter_cons_of_pos (by simpa using hkept)]
  rfl

theorem exists_planSource (lower : Char → Char) (policy : RunControl) (src : JobSource) :
    ∃ log p, Logs (planSource lower policy src) log (.ret (.ok p)) ∧ p.helper = false := by
  let disk := keptDisk lower policy.excludeDisks
  let p : VmPlan :=
    { node := "pve", name := guestName src.name "" src.vmid,
      sourceID := vmSourceID src.hostID src.vmid, disks := [disk].map DiskInfo.name,
      helper := false, sourceID_ne := vmSourceID_ne _ _ }
  have hguest : Logs (planGuest lower policy src src.name "pve")
      [⟨.config src.hostID "pve" src.vmid, .ok ⟨"", [disk]⟩⟩,
        ⟨.helperForNode src.hostID "pve", .ok false⟩] (.ret (.ok p)) := by
    refine .cons _ ?_
    dsimp only
    rw [if_neg (by simp), applyDiskExclusions_kept]
    refine .cons _ ?_
    dsimp only
    rw [if_neg (by simp)]
    exact .nil
  exact ⟨⟨.cachedVM src.hostID src.vmid, .error .notFound⟩ ::
    ⟨.findNodeForVM src.hostID src.vmid, .ok "pve"⟩ :: _, p, .cons _ (.cons _ hguest), rfl⟩

theorem exists_planLoop (lower : Char → Char) (policy : RunControl) (sources : List JobSource)
    (hsources : ∀ src ∈ sources, ¬ (src.hostID = "" ∨ src.vmid = 0)) (known : List String)
    (plans : List VmPlan) :
    ∃ log out, Logs (planLoop lower policy sources known plans) log (.ret (.ok (plans ++ out))) ∧
      out.length = sources.length ∧ ∀ p ∈ out, p.helper = false := by
  induction sources generalizing known plans with
  | nil => exact ⟨[], [], by rw [List.append_nil]; exact .nil, rfl, by simp⟩
  | cons src rest ih =>
    have hrest := ih fun src hsrc => hsources src (List.mem_cons_of_mem _ hsrc)
    obtain ⟨log, p, hlog, hhelper⟩ := exists_planSource lower policy src
    have hgo : ∀ known', ∃ log out, Logs
          (planSource lower policy src >>= planNext lower policy rest known' plans) log
          (.ret (.ok (plans ++ out))) ∧
        out.length = (src :: rest).length ∧ ∀ p ∈ out, p.helper = false := by
      intro known'
      obtain ⟨log', out, hlog', hlen, hhelpers⟩ := hrest known' (plans ++ [p])
      refine ⟨log ++ log', p :: out, ?_, by simp [hlen], ?_⟩
      · rw [List.append_assoc, List.singleton_append] at hlog'
        exact (hlog.bind _).trans hlog'
      · intro q hq
        rcases List.mem_cons.mp hq with rfl | hq
        · exact hhelper
        · exact hhelpers q hq
    unfold planLoop
    rw [if_neg (hsources src List.mem_cons_self)]
    dsimp only
    by_cases hknown : src.hostID ∈ known
    · rw [if_pos hknown]
      exact hgo known
    · rw [if_neg hknown]
      obtain ⟨log', out, hlog', hout⟩ := hgo (src.hostID :: known)
      exact ⟨⟨.pveHost src.hostID, .ok ""⟩ :: log', out, .cons _ hlog', hout⟩

def rowErr : Store.Err := .failed "create backup" (.other 0)

theorem exists_exportLoop (node : String) (disks : List String) (out : List DiskManifest) :
    ∃ log res, Logs (Guest.exportLoop node disks out) log (.ret (.ok res)) := by
  induction disks generalizing out with
  | nil => exact ⟨[], out, .nil⟩
  | cons disk rest ih =>
    let dm : DiskManifest := ⟨disk, 0, []⟩
    obtain ⟨log, res, hlog⟩ := ih (out ++ [dm])
    exact ⟨⟨.exportDisk disk, .ok []⟩ :: ⟨.backupStream disk [], ⟨.ok dm, []⟩⟩ :: ⟨.close, none⟩ :: log,
      res, .cons _ (.cons _ (.cons _ hlog))⟩

theorem exists_exported {p : VmPlan} (hhelper : p.helper = false) :
    ∃ log disks, Logs (Guest.exported p) log (.ret (.ok disks)) := by
  obtain ⟨log, disks, hlog⟩ := exists_exportLoop p.node p.disks []
  have hdisks : Logs (Guest.exportDisks p) (log ++ [⟨.deleteSnapshot, .error .canceled⟩])
      (.ret (.ok disks)) := (hlog.bind _).trans (.cons _ .nil)
  refine ⟨⟨.createSnapshot, .ok ""⟩ :: ⟨.waitTask "", .ok ()⟩ ::
    (log ++ [⟨.deleteSnapshot, .error .canceled⟩]), disks, ?_⟩
  unfold Guest.exported
  rw [hhelper, if_neg (by decide)]
  exact .cons _ (.cons _ hdisks)

theorem guest_logs {α : Type} {p q : Guest.GuestM α} {log : List (Σ c, Guest.Reply c)}
    (h : Logs p log q) :
    Logs (guest p) (log.map fun ev => (⟨.guest ev.1, ev.2⟩ : Event)) (guest q) := by
  let embed (c : Guest.Call) (r : Guest.Reply c) : Reply (.guest c) := r
  exact h.lift embed fun _ _ => rfl

theorem exists_backupOneVM (job : Job) (runID : String) {p : VmPlan} (hhelper : p.helper = false) :
    ∃ log man b, Logs (guest (Guest.backupOneVM job runID p .zero))
      (log ++ recordLog job man b (.error rowErr)) (.ret (some (.sched (.store rowErr)))) ∧
      ∀ ev ∈ log, Keyed ev.1 ev.2 := by
  obtain ⟨log, disks, hlog⟩ := exists_exported hhelper
  let plan := Sched.Plan.byWorkers p.sourceID p.name p.sourceID_ne
  let man := newManifest job runID .vm plan disks 0 "" "" 0
  let b := newBackup man p.sourceID_ne
  have hone : Logs (Guest.backupOneVM job runID p .zero)
      (⟨.sched (.script .pre), .ok ()⟩ :: (log ++ guestRecordLog job man b (.error rowErr)))
      (.ret (some (.sched (.store rowErr)))) :=
    .cons _ ((hlog.bind _).trans (.cons _ (.cons _ (.cons _ (.cons _ (.cons _ (.cons _ .nil)))))))
  refine ⟨⟨.guest (.sched (.script .pre)), .ok ()⟩ :: log.map fun ev => ⟨.guest ev.1, ev.2⟩,
    man, b, ?_, ?_⟩
  · rw [List.cons_append, recordLog, ← List.map_append]
    exact guest_logs hone
  · intro ev hev
    rcases List.mem_cons.mp hev with rfl | hev
    · trivial
    · obtain ⟨ev', -, rfl⟩ := List.mem_map.mp hev
      trivial

/-- The log has a manifest in it, and can be that of a run with its inventories in order. -/
structure Leaves (log : List Event) : Prop where
  keyed : ∀ ev ∈ log, Keyed ev.1 ev.2
  manifest : ∃ w, 1 ≤ (effects (acked log)).count (.manifest w)

theorem Leaves.append {log log₁ log₂ : List Event} (h : Leaves log)
    (h₁ : ∀ ev ∈ log₁, Keyed ev.1 ev.2) (h₂ : ∀ ev ∈ log₂, Keyed ev.1 ev.2) :
    Leaves (log₁ ++ (log ++ log₂)) := by
  obtain ⟨hkeyed, w, hcount⟩ := h
  refine ⟨fun ev hev => ?_, w, ?_⟩
  · rcases List.mem_append.mp hev with hev | hev
    · exact h₁ ev hev
    rcases List.mem_append.mp hev with hev | hev
    · exact hkeyed ev hev
    · exact h₂ ev hev
  · rw [acked_append, acked_append, effects_append, effects_append, List.count_append,
      List.count_append]
    omega

theorem recordLog_leaves (job : Job) (man : Manifest) (b : Backup) (r : Except Store.Err Unit) :
    Leaves (recordLog job man b r) := by
  refine ⟨fun ev hev => ?_, (man.sourceKind, man.sourceID), ?_⟩
  · obtain ⟨ev', -, rfl⟩ := List.mem_map.mp hev
    trivial
  · refine List.count_pos_iff.mpr (List.mem_flatMap.mpr ⟨(⟨.guest (.sched (.engine job.targetID
      (.putManifest man.key man))), .ok ()⟩, true), ?_, List.mem_singleton_self _⟩)
    exact List.mem_filter.mpr ⟨.tail _ (.tail _ (.tail _ (.tail _ (.head _)))), rfl⟩

def storeErr : Err := .guest (.sched (.store rowErr))

theorem exists_backupLoop (job : Job) (runID : String) {p : VmPlan} (hhelper : p.helper = false)
    (rest : List VmPlan) :
    ∃ log, Logs (backupLoop job runID 0 (p :: rest)) log (.ret (some storeErr)) ∧ Leaves log := by
  obtain ⟨log, man, b, hlog, hkeyed⟩ := exists_backupOneVM job runID hhelper
  let before : List Event :=
    [⟨.guest (.sched .ctxErr), none⟩, ⟨.guest .stats, .zero⟩, ⟨.beginSource 0, ()⟩]
  refine ⟨(before ++ log) ++ (recordLog job man b (.error rowErr) ++
    [⟨.finishSource 0 .failed, ()⟩]), ?_, (recordLog_leaves _ _ _ _).append ?_ ?_⟩
  · rw [List.append_assoc, ← List.append_assoc log]
    exact .cons _ (.cons _ (.cons _ ((hlog.bind _).trans (.cons _ .nil))))
  · intro ev hev
    rcases List.mem_append.mp hev with hev | hev
    · simp only [before, List.mem_cons, List.not_mem_nil, or_false] at hev
      rcases hev with rfl | rfl | rfl <;> trivial
    · exact hkeyed ev hev
  · intro ev hev
    cases List.mem_singleton.mp hev
    trivial

theorem accepted_vm (hacc : j.Accepted) (hkind : j.job.kind = .vm) :
    (j.tagFilter = "" → j.sources ≠ []) ∧
      ∀ src ∈ j.sources, ¬ (src.hostID = "" ∨ src.vmid = 0) := by
  have hvalid := hacc.1
  rw [hkind, validateJob, if_neg (by simp)] at hvalid
  split at hvalid
  · cases hvalid
  rename_i hempty
  rw [if_pos rfl, List.findSome?_eq_none_iff] at hvalid
  refine ⟨fun htag hnil => hempty ⟨hnil, htag⟩, fun src hsrc hbad => ?_⟩
  have hsrc := hvalid src hsrc
  rw [vmSourceErr, if_pos hbad] at hsrc
  cases hsrc

/-- The tag filter is not blank, as none is that `normalizeTagFilter` leaves. -/
def BackupJob.TagNormal (j : BackupJob) : Prop :=
  j.tagFilter ≠ "" → trimSpace j.tagFilter.toList ≠ []

def tagged (lower : Char → Char) (tag : String) : VM :=
  ⟨"host", "host", 1, "guest", "pve", [String.ofList ((trimSpace tag.toList).map lower)]⟩

@[grind =] theorem tagged_hasTag {tag : String} (h : trimSpace tag.toList ≠ []) :
    (tagged lower tag).hasTag lower tag = true := by
  unfold VM.hasTag tagged
  dsimp only
  rw [if_neg (by simpa using h)]
  simp

theorem exists_planVMJob (lower : Char → Char) (hacc : j.Accepted) (hkind : j.job.kind = .vm) (htag : j.TagNormal) :
    ∃ log p rest, Logs (planVMJob lower j) log (.ret (.ok (p :: rest))) ∧ p.helper = false ∧
      ∀ ev ∈ log, Keyed ev.1 ev.2 := by
  have hplans : ∀ sources : List JobSource, sources ≠ [] →
      (∀ src ∈ sources, ¬ (src.hostID = "" ∨ src.vmid = 0)) →
      ∃ log p rest, Logs (if sources = [] then .ret (.error (.plan .noSources))
        else planLoop lower j.policy sources [] []) log (.ret (.ok (p :: rest))) ∧
        p.helper = false ∧ ∀ ev ∈ log, Keyed ev.1 ev.2 := by
    intro sources hne hsources
    rw [if_neg hne]
    obtain ⟨log, out, hlog, hlen, hhelpers⟩ :=
      exists_planLoop lower j.policy sources hsources [] []
    cases out with
    | nil => exact absurd (List.length_eq_zero_iff.mp hlen.symm) hne
    | cons p rest =>
      refine ⟨log, p, rest, hlog, hhelpers p List.mem_cons_self, fun ev hev => keyed_of_ne ?_⟩
      have hplans := (planLoop_ends j.policy sources [] []).calls.logs hlog ev hev
      rintro heq
      rw [heq] at hplans
      exact hplans
  obtain ⟨hne, hsources⟩ := accepted_vm hacc hkind
  unfold planVMJob
  dsimp only
  by_cases hfilter : j.tagFilter ≠ ""
  · rw [if_pos hfilter]
    let src : JobSource := ⟨"host", 1, "guest", "", []⟩
    obtain ⟨log, p, rest, hlog, hhelper, hkeyed⟩ := hplans [src] (by simp) (by simp [src])
    refine ⟨⟨.listCachedVMs, .ok [tagged lower j.tagFilter]⟩ :: log, p, rest, ?_, hhelper, ?_⟩
    · have hcarries : [tagged lower j.tagFilter].filter (fun v => v.hasTag lower j.tagFilter) =
          [tagged lower j.tagFilter] := by
        simp [tagged_hasTag (htag hfilter)]
      have hres : Logs (resolveTagFilter lower j.tagFilter)
          [⟨.listCachedVMs, .ok [tagged lower j.tagFilter]⟩] (.ret (.ok [src])) := by
        refine .cons _ ?_
        dsimp only
        rw [hcarries]
        exact .nil
      exact (hres.bind _).trans hlog
    · intro ev hev
      rcases List.mem_cons.mp hev with rfl | hev
      · exact List.nodup_singleton _
      · exact hkeyed ev hev
  · rw [if_neg hfilter]
    exact hplans j.sources (hne (not_not.mp hfilter)) hsources

theorem exists_failedJob (lower : Char → Char) (runID : String) (hacc : j.Accepted) (htag : j.TagNormal) :
    ∃ log, Logs (backupJob lower j runID) log (.ret (some storeErr)) ∧ Leaves log := by
  unfold backupJob
  cases hkind : j.job.kind with
  | vm =>
    obtain ⟨log, p, rest, hlog, hhelper, hkeyed⟩ := exists_planVMJob lower hacc hkind htag
    obtain ⟨log', hlog', hleaves⟩ := exists_backupLoop j.job runID hhelper rest
    refine ⟨(log ++ [⟨.planSources (plannedRows (p :: rest)), ()⟩]) ++ (log' ++ []), ?_,
      hleaves.append ?_ (List.forall_mem_nil _)⟩
    · rw [List.append_nil, List.append_assoc]
      exact (hlog.bind _).trans (.cons _ hlog')
    · intro ev hev
      rcases List.mem_append.mp hev with hev | hev
      · exact hkeyed ev hev
      · cases List.mem_singleton.mp hev
        trivial
  | agent =>
    obtain ⟨src, rest, hsources, hid, hpaths, hblank⟩ := accepted_agent hacc hkind
    let man := newManifest j.job runID .agent (.byWorkers src.agentID "guest" hid) [] 0 "" "" 0
    have hrecord : Logs (recordAgent j.job runID src.agentID "guest" hid [])
        (recordLog j.job man (newBackup man hid) (.error rowErr)) (.ret (some storeErr)) :=
      .cons _ (.cons _ (.cons _ (.cons _ (.cons _ (.cons _ .nil)))))
    let before : List Event := [⟨.agentByID src.agentID, .ok ⟨"guest", true⟩⟩,
      ⟨.planSources [⟨0, .agent, src.agentID⟩], ()⟩, ⟨.beginSource 0, ()⟩,
      ⟨.runBackup src.agentID src.paths, .ok []⟩]
    refine ⟨before ++ (recordLog j.job man (newBackup man hid) (.error rowErr) ++
      [⟨.finishSource 0 .failed, ()⟩]), ?_, (recordLog_leaves _ _ _ _).append ?_ ?_⟩
    · unfold backupAgentJob
      rw [hsources]
      dsimp only
      rw [dif_neg hid]
      refine .cons _ ?_
      dsimp only
      rw [if_neg (by simp), if_neg hpaths, if_neg hblank]
      exact .cons _ (.cons _ (.cons _ ((hrecord.bind _).trans (.cons _ .nil))))
    · intro ev hev
      simp only [before, List.mem_cons, List.not_mem_nil, or_false] at hev
      rcases hev with rfl | rfl | rfl | rfl <;> trivial
    · intro ev hev
      cases List.mem_singleton.mp hev
      trivial

end

/-- A run makes at most one restore point of a workload, whatever fails in it, exactly when
its job does not retry. -/
theorem recordsOnce_iff (lower : Char → Char) (e : Engine) (j : BackupJob) (runID : String)
    (hacc : j.Accepted) (htag : j.TagNormal) (hdistinct : j.Distinct) :
    RecordsOnce lower e j runID ↔ j.policy.retryCount = 0 := by
  refine ⟨fun honce => ?_, recordsOnce_of_noRetries hdistinct⟩
  have hretry := (RunControl.retryCount_of_validate hacc.2).1
  by_contra hne
  obtain ⟨log, hlog, hleaves⟩ := exists_failedJob lower runID hacc htag
  let before : List Event := [⟨.guest (.sched (.openTarget j.job.targetID)), .ok ()⟩,
    ⟨.guest (.sched (.markTargetActive j.job.targetID)), ()⟩]
  let after : List Event := [⟨.guest (.sched (.markTargetIdle j.job.targetID)), false⟩]
  have hattempt : Leaves (before ++ (log ++ after)) := by
    refine hleaves.append ?_ ?_
    · intro ev hev
      simp only [before, List.mem_cons, List.not_mem_nil, or_false] at hev
      rcases hev with rfl | rfl <;> trivial
    · intro ev hev
      cases List.mem_singleton.mp hev
      trivial
  obtain ⟨w, hcount⟩ := hattempt.manifest
  exact twice_of_failed (by omega) (backupAttempt_logs hlog) rfl hattempt.keyed hcount honce

def nightly (retryCount : Int) : BackupJob where
  job := ⟨"job1", "nightly", .vm, "t1", ⟨7, 0, 0, 0, 0⟩⟩
  sources := [⟨"pve1", 101, "web", "", []⟩]
  tagFilter := ""
  policy := ⟨[], retryCount, 5, 0⟩

theorem nightly_accepted {n : Int} (h : n = 0 ∨ n = 1) : (nightly n).Accepted := by
  rcases h with rfl | rfl <;> constructor <;> decide +kernel

theorem nightly_distinct (n : Int) : (nightly n).Distinct := List.nodup_singleton _

theorem nightly_tagNormal (n : Int) : (nightly n).TagNormal := fun h => absurd rfl h

theorem recordsOnce_noRetry :
    RecordsOnce Char.toLower byteEngine (nightly 0) "run1" ∧ (nightly 0).policy.retryCount = 0 :=
  ⟨(recordsOnce_iff _ _ _ _ (nightly_accepted (.inl rfl)) (nightly_tagNormal 0)
    (nightly_distinct 0)).mpr rfl, rfl⟩

def webPlan : VmPlan :=
  { node := "pve", name := "web", sourceID := vmSourceID "pve1" 101, disks := ["scsi0"],
    helper := false, sourceID_ne := vmSourceID_ne _ _ }

def webManifest : Manifest :=
  newManifest (nightly 1).job "run1" .vm (.byWorkers webPlan.sourceID "web" webPlan.sourceID_ne)
    [⟨"scsi0", 0, []⟩] 0 "" "b1" 1

def postScriptLog : List Event :=
  [⟨.guest (.sched (.openTarget "t1")), .ok ()⟩, ⟨.guest (.sched (.markTargetActive "t1")), ()⟩,
    ⟨.pveHost "pve1", .ok ""⟩,
    ⟨.cachedVM "pve1" 101, .ok ⟨"pve1", "", 101, "web", "pve", []⟩⟩,
    ⟨.config "pve1" "pve" 101, .ok ⟨"web", [⟨"scsi0", 1⟩]⟩⟩, ⟨.helperForNode "pve1" "pve", .ok false⟩,
    ⟨.planSources [⟨0, .vm, webPlan.sourceID⟩], ()⟩,
    ⟨.guest (.sched .ctxErr), none⟩, ⟨.guest .stats, .zero⟩, ⟨.beginSource 0, ()⟩,
    ⟨.guest (.sched (.script .pre)), .ok ()⟩,
    ⟨.guest .createSnapshot, .ok "UPID"⟩, ⟨.guest (.waitTask "UPID"), .ok ()⟩,
    ⟨.guest (.exportDisk "scsi0"), .ok []⟩,
    ⟨.guest (.backupStream "scsi0" []), ⟨.ok ⟨"scsi0", 0, []⟩, []⟩⟩, ⟨.guest .close, none⟩,
    ⟨.guest .deleteSnapshot, .ok "UPID"⟩, ⟨.guest (.waitTask "UPID"), .ok ()⟩] ++
  recordLog (nightly 1).job webManifest (newBackup webManifest webPlan.sourceID_ne) (.ok ()) ++
  [⟨.guest (.sched (.script .post)), .error (.other 0)⟩, ⟨.finishSource 0 .failed, ()⟩,
    ⟨.guest (.sched (.markTargetIdle "t1")), true⟩]

theorem postScriptLog_logs :
    Logs (backupAttempt Char.toLower byteEngine (nightly 1) "run1") postScriptLog
      (.ret (some (.guest (.sched (.script .post (.other 0)))))) := by
  repeat refine .cons _ ?_
  exact .nil

/-- The retry after a failed post-script makes a second row of the guest. -/
theorem postScript_recordsTwice :
    (nightly 1).Accepted ∧ (nightly 1).Distinct ∧
      ¬ RecordsOnce Char.toLower byteEngine (nightly 1) "run1" := by
  refine ⟨nightly_accepted (.inr rfl), nightly_distinct 1, fun honce => ?_⟩
  let log := postScriptLog ++ ⟨.runCtxErr, none⟩ :: ⟨.retryWait 5, none⟩ :: postScriptLog
  have hlog : ∃ q, Logs (executeBackup Char.toLower byteEngine (nightly 1) "run1") log q :=
    ⟨_, (tryLoop_again postScriptLog_logs rfl (postScriptLog_logs.bind _)).bind _⟩
  obtain ⟨q, hlog⟩ := hlog
  have hfair : Fair (acked log) := by
    refine acked_fair ?_
    repeat refine List.forall_mem_cons.mpr ⟨trivial, ?_⟩
    exact List.forall_mem_nil _
  have hcount := (honce _ q (by rwa [map_fst_acked]) hfair (.vm, webPlan.sourceID)).1
  revert hcount
  decide

end ProxBack.Sched.Execute
