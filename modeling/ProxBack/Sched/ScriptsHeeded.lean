import ProxBack.Sched.ScriptsGuard

/-! Whose scripts guard the data: those of jobs of machines do. The agent is handed its
scripts with the dispatch and runs neither. -/
namespace ProxBack.Sched.Scripts
open Lib Text Prog Engine Store Execute

variable {s : DataPolicy} {w w' : Watch} {sha256 : Bytes → Sha} {lower : Char → Char} {e : Engine}
  {j : BackupJob} {runID : String}

def Refused (j : BackupJob) : Prop :=
  match j.sources with
  | [] => True
  | src :: _ =>
    src.agentID = "" ∨ src.paths = [] ∨ (src.paths.any fun p => trimSpace p.toList = []) = true

def Heeded (s : DataPolicy) (j : BackupJob) : Prop :=
  j.job.kind = .vm ∨ (s.preScript = "" ∧ s.postScript = "") ∨ Refused j

theorem refused_watched (h : Refused j) :
    Watched s AllReported (backupAgentJob sha256 s j runID) .fresh := by
  unfold Refused at h
  unfold backupAgentJob Execute.backupAgentJob
  cases hsources : j.sources with
  | nil => exact nofun
  | cons src rest =>
    rw [hsources] at h
    dsimp only at h ⊢
    by_cases hid : src.agentID = ""
    · rw [dif_pos hid]
      exact nofun
    rw [dif_neg hid]
    refine wp_quiet (Still.quiet trivial) ?_
    rintro (err | agent)
    · exact nofun
    show Watched s AllReported (interp _ (if _ then _ else _)) .fresh
    by_cases honline : ¬ agent.online
    · rw [if_pos honline]
      exact nofun
    rw [if_neg honline]
    rcases h with h | h | h
    · exact absurd h hid
    · rw [if_pos h]
      exact nofun
    · by_cases hpaths : src.paths = []
      · rw [if_pos hpaths]
        exact nofun
      · rw [if_neg hpaths, if_pos h]
        exact nofun

theorem allowed_of_none (hpre : s.preScript = "") (hpost : s.postScript = "") (c : Call)
    (w : Watch) : Allowed s c w :=
  ⟨fun _ => .inl hpre, fun _ _ => .inl hpost⟩

def SameReports (w w' : Watch) : Prop := w'.begun = w.begun ∧ w'.succeeded = w.succeeded

theorem note_sameReports {c : Call} (hbegin : ∀ i, c ≠ .exec (.beginSource i))
    (hfinish : ∀ i status, c ≠ .exec (.finishSource i status)) (r : Reply c) :
    SameReports w (note s w ⟨c, r⟩) := by
  have hmoves : ∀ c : Call, SameReports w (if c.Moves then w.moved else w) := by
    intro c
    split <;> exact ⟨rfl, rfl⟩
  cases c with
  | exec c =>
    cases c with
    | beginSource i => exact absurd rfl (hbegin i)
    | finishSource i status => exact absurd rfl (hfinish i status)
    | _ => exact hmoves (.exec _)
  | shell phase script =>
    rcases r with err | ⟨⟩
    · exact ⟨rfl, rfl⟩
    · show SameReports w (if _ then _ else _)
      split
      · cases phase <;> exact ⟨rfl, rfl⟩
      · exact ⟨rfl, rfl⟩
  | agent c => exact hmoves (.agent c)
  | _ => exact ⟨rfl, rfl⟩

def Reports : (c : Execute.Call) → Watch → Execute.Reply c → Watch → Prop
  | .beginSource i, w, _, w' => w'.begun = i :: w.begun ∧ w'.succeeded = w.succeeded
  | .finishSource i status, w, _, w' =>
    w'.begun = w.begun ∧ (status = .success → w'.succeeded = i :: w.succeeded)
  | _, w, _, w' => SameReports w w'

theorem onAgent_reports (hpre : s.preScript = "") (hpost : s.postScript = "")
    (c : Execute.Call) (w : Watch) :
    Watched s (fun r w' => Reports c w r w') (onAgent sha256 s runID c) w := by
  have hone : ∀ c : Execute.Call, (∀ r, Reports c w r (note s w ⟨.exec c, r⟩)) →
      Watched s (fun r w' => Reports c w r w') (.call (.exec c) .ret) w :=
    fun c h => wp_call_keeping.mpr ⟨allowed_of_none hpre hpost _ _, h⟩
  cases c with
  | runBackup agentID paths =>
    -- no call of the agent's work is a report
    have hcalls : Calls (fun c => ∀ x, c ≠ .exec x) (runBackup sha256 s runID agentID paths) := by
      refine ⟨nofun, ?_⟩
      rintro (- | -)
      · exact ⟨nofun, fun _ => trivial⟩
      · exact (Calls.lift ((calls_true _).mono fun _ _ => nofun)).bind fun _ =>
          ⟨nofun, fun _ => trivial⟩
    refine hcalls.wp_invariant (fun c w₁ hc hw₁ => ⟨allowed_of_none hpre hpost _ _, ?_⟩) ⟨rfl, rfl⟩
    rintro r w₂ rfl
    have hsame : SameReports w₁ (note s w₁ ⟨c, r⟩) :=
      note_sameReports (fun _ => hc _) (fun _ _ => hc _) r
    obtain ⟨hbegun, hsucceeded⟩ := hsame
    exact ⟨hbegun.trans hw₁.1, hsucceeded.trans hw₁.2⟩
  | beginSource i => exact hone _ fun _ => ⟨rfl, rfl⟩
  | finishSource i status =>
    refine hone _ fun _ => ?_
    cases status with
    | success => exact ⟨rfl, fun _ => rfl⟩
    | _ => exact ⟨rfl, nofun⟩
  | _ => exact hone _ fun _ => note_sameReports (by nofun) (by nofun) _

def Between : Execute.Call → Prop
  | .beginSource _ | .finishSource _ _ => False
  | _ => True

theorem between_reports {α : Type} {p : ExecM α} (h : Calls Between p) :
    Wp Reports (fun _ _ => True) (fun _ w' => SameReports w w') p w := by
  refine h.wp_invariant (fun c w₁ hc hw₁ => ⟨trivial, fun r w₂ ht => ?_⟩) ⟨rfl, rfl⟩
  have hsame : SameReports w₁ w₂ := by
    cases c <;> first | exact ht | exact absurd hc id
  exact ⟨hsame.1.trans hw₁.1, hsame.2.trans hw₁.2⟩

theorem backupAgent_between (job : Job) (runID agentID hostname : String) (hid : agentID ≠ "")
    (paths : List String) : Calls Between (backupAgent job runID agentID hostname hid paths) := by
  refine ⟨trivial, ?_⟩
  rintro (f | disks)
  · trivial
  · refine ⟨trivial, fun snapshot => ?_⟩
    exact (Calls.lift (Calls.lift ((calls_true _).mono fun _ _ => trivial))).bind fun _ => trivial

theorem backupAgentJob_reports :
    Wp Reports (fun _ _ => True) AllReported (Execute.backupAgentJob j runID) .fresh := by
  unfold Execute.backupAgentJob
  cases j.sources with
  | nil => exact nofun
  | cons src rest =>
    dsimp only
    split
    · exact nofun
    refine ⟨trivial, ?_⟩
    rintro (err | agent) w₁ hw₁
    · exact nofun
    dsimp only
    split
    · exact nofun
    split
    · exact nofun
    split
    · exact nofun
    refine ⟨trivial, fun _ w₂ hw₂ => ⟨trivial, fun _ w₃ hw₃ => (wp_bind _ _ _).mpr ?_⟩⟩
    refine (between_reports (backupAgent_between ..)).post_mono ?_
    rintro res w₄ ⟨hbegun₄, hsucceeded₄⟩
    refine ⟨trivial, fun _ w₅ hw₅ hres => ?_⟩
    subst hres
    intro i hi
    rw [hw₅.1, hbegun₄, hw₃.1, hw₂.1, hw₁.1] at hi
    rw [hw₅.2 rfl, hsucceeded₄, hw₃.2, hw₂.2, hw₁.2]
    exact hi

theorem unscripted_watched (hpre : s.preScript = "") (hpost : s.postScript = "") :
    Watched s AllReported (backupAgentJob sha256 s j runID) .fresh :=
  backupAgentJob_reports.interp fun c w _ => onAgent_reports hpre hpost c w

theorem backupAgentJob_unshelled :
    Calls (fun c => ∀ phase script, c ≠ .shell phase script)
      (backupAgentJob sha256 s j runID) := by
  refine (calls_true _).interp fun c _ => ?_
  cases c with
  | runBackup agentID paths =>
    refine ⟨nofun, ?_⟩
    rintro (- | -)
    · exact ⟨nofun, fun _ => trivial⟩
    · exact (Calls.lift ((calls_true _).mono fun _ _ => nofun)).bind fun _ => ⟨nofun, fun _ => trivial⟩
  | _ => exact ⟨by nofun, fun _ => trivial⟩

theorem foldl_unshelled {log : List Event} (h : ∀ ev ∈ log, ∀ phase script, ev.1 ≠ .shell phase script)
    (hpre : w.pre = false) (hpost : w.post = false) :
    (log.foldl (note s) w).pre = false ∧ (log.foldl (note s) w).post = false := by
  induction log generalizing w with
  | nil => exact ⟨hpre, hpost⟩
  | cons ev log ih =>
    obtain ⟨hev, hlog⟩ := List.forall_mem_cons.mp h
    obtain ⟨c, r⟩ := ev
    have hnote : (note s w ⟨c, r⟩).pre = false ∧ (note s w ⟨c, r⟩).post = false := by
      have hmoves : ∀ c : Call, (if c.Moves then w.moved else w).pre = false ∧
          (if c.Moves then w.moved else w).post = false := by
        intro c
        split
        · exact ⟨hpre, rfl⟩
        · exact ⟨hpre, hpost⟩
      cases c with
      | exec c =>
        cases c with
        | beginSource i => exact ⟨rfl, rfl⟩
        | finishSource i status => cases status <;> exact ⟨hpre, hpost⟩
        | _ => exact hmoves (.exec _)
      | shell phase script => exact absurd rfl (hev phase script)
      | agent c => exact hmoves (.agent c)
      | _ => exact ⟨hpre, hpost⟩
    exact ih hlog hnote.1 hnote.2

theorem onAgent_logs (sha256 : Bytes → Sha) (s : DataPolicy) (runID : String) {α : Type} {p q : ExecM α} {log : List (Σ c, Execute.Reply c)}
    (h : Logs p log q) (hlog : ∀ ev ∈ log, ∀ agentID paths, ev.1 ≠ .runBackup agentID paths) :
    Logs (p.interp (onAgent sha256 s runID)) (log.map fun ev => (⟨.exec ev.1, ev.2⟩ : Event))
      (q.interp (onAgent sha256 s runID)) := by
  induction h with
  | nil => exact .nil
  | @cons c k log q r _ ih =>
    obtain ⟨hc, hrest⟩ := List.forall_mem_cons.mp hlog
    have hcall : onAgent sha256 s runID c = .call (.exec c) .ret := by
      cases c with
      | runBackup agentID paths => exact absurd rfl (hc agentID paths)
      | _ => rfl
    have hone : Logs (onAgent sha256 s runID c) [(⟨.exec c, r⟩ : Event)] (.ret r) := by
      rw [hcall]
      exact .cons (show Reply (.exec c) from r) .nil
    exact (hone.bind _).trans (ih hrest)

def tarEnd : Bytes := List.replicate 1024 0

theorem exists_collect (sha256 : Bytes → Sha) {d : Agent.Upload.Dispatch} (hpaths : d.paths ≠ []) (hsize : 1024 < d.size) :
    ∃ log, Logs (Agent.Upload.collect sha256 d) log (.ret ()) ∧
      ⟨.writeTar d.paths d.excludePaths, ⟨[⟨tarEnd, some .eof⟩], none⟩⟩ ∈ log := by
  have hne : tarEnd ≠ [] := List.ne_nil_of_length_pos (by rw [tarEnd, List.length_replicate]; decide)
  have hlen : tarEnd.length = 1024 := List.length_replicate ..
  have hloop : Logs (Agent.Upload.uploadLoop sha256 d 0 [⟨tarEnd, some .eof⟩]
      ⟨Agent.Upload.streamName, 0, []⟩) [⟨.ctxErr, none⟩, ⟨.uploadChunk d.runID (sha256 tarEnd) tarEnd 0, none⟩]
      (.ret (.ok (Agent.Upload.addChunk ⟨Agent.Upload.streamName, 0, []⟩ (sha256 tarEnd) tarEnd))) := by
    rw [Agent.Upload.uploadLoop_single sha256 hne (by rw [hlen]; exact hsize)]
    exact .cons _ (.cons _ .nil)
  have hrun : Logs (Agent.Upload.runBackup sha256 d) (⟨.estimateSize d.paths d.excludePaths, .ok 0⟩ ::
      ⟨.writeTar d.paths d.excludePaths, ⟨[⟨tarEnd, some .eof⟩], none⟩⟩ ::
      ([⟨.ctxErr, none⟩, ⟨.uploadChunk d.runID (sha256 tarEnd) tarEnd 0, none⟩] ++
        [⟨.complete d.runID [Agent.Upload.addChunk ⟨Agent.Upload.streamName, 0, []⟩ (sha256 tarEnd) tarEnd],
          none⟩])) (.ret none) := by
    unfold Agent.Upload.runBackup
    rw [if_neg hpaths]
    refine .cons _ ?_
    refine .cons _ ?_
    exact (hloop.bind _).trans (.cons _ .nil)
  exact ⟨_, hrun.bind _, .tail _ (.head _)⟩

theorem dispatch_size (s : DataPolicy) (runID : String) (paths : List String) :
    1024 < (dispatch s runID paths).size := by
  show 1024 < if (Engine.chunkSize : Int) ≤ 0 then Engine.chunkSize else (Engine.chunkSize : Int).toNat
  rw [if_neg (by decide)]
  decide

theorem returns_retention (targetID : String) (policy : RetentionPolicy) (kind : SourceKind)
    (sourceID : String) : (applyRetention targetID policy kind sourceID).Returns none := by
  unfold applyRetention
  split
  · rfl
  · exact ⟨.ok [], rfl⟩

theorem returns_recordAgent (job : Job) (runID agentID hostname : String) (hid : agentID ≠ "")
    (disks : List DiskManifest) :
    (recordAgent job runID agentID hostname hid disks).Returns none := by
  have hrecord : (recordBackup job runID .agent (.byWorkers agentID hostname hid) (disks, 0)
      (applyRetention job.targetID job.retention .agent agentID)).Returns none := by
    refine returns_bind.mpr ⟨.ok "", ⟨.error .notFound, rfl⟩, "", 0, returns_bind.mpr
      ⟨.ok (), ⟨.ok (), rfl⟩, .ok (), returns_retention ..⟩⟩
  have hsched : (Execute.sched (recordBackup job runID .agent (.byWorkers agentID hostname hid)
      (disks, 0) (applyRetention job.targetID job.retention .agent agentID))).Returns none :=
    returns_guest.mpr ((@returns_lift _ _ _ Guest.Call Guest.Reply .sched (fun _ r => r)
      (fun _ r => ⟨r, rfl⟩) _ _).mpr hrecord)
  exact ⟨.zero, returns_bind.mpr ⟨none, hsched, rfl⟩⟩

theorem exists_dispatched (sha256 : Bytes → Sha) (lower : Char → Char) (s : DataPolicy) (e : Engine)
    (runID : String) (hkind : j.job.kind = .agent) (h : ¬ Refused j) :
    ∃ log q, Logs (backupAttempt sha256 lower s e j runID) log q ∧
      (∀ ev ∈ log, ∀ phase script, ev.1 ≠ .shell phase script) ∧ (∃ ev ∈ log, ev.1.Moves) ∧
      (⟨.exec (.finishSource 0 .success), ()⟩ : Event) ∈ log := by
  obtain ⟨src, rest, hsources⟩ : ∃ src rest, j.sources = src :: rest := by
    cases hsources : j.sources with
    | nil => exact absurd (by rw [Refused, hsources]; trivial) h
    | cons src rest => exact ⟨src, rest, rfl⟩
  rw [Refused, hsources] at h
  simp only [not_or] at h
  obtain ⟨hid, hpaths, hblank⟩ := h
  obtain ⟨log₁, hcollect, hmoved⟩ :=
    exists_collect sha256 (d := dispatch s runID src.paths) hpaths (dispatch_size ..)
  obtain ⟨log₂, hrecord⟩ := returns_iff_logs.mp
    (returns_recordAgent j.job runID src.agentID "guest" hid [])
  -- the dispatch and its result
  have hrun : Logs (runBackup sha256 s runID src.agentID src.paths)
      (⟨.collected src.agentID, true⟩ :: (log₁.map fun ev => (⟨.agent ev.1, ev.2⟩ : Event)) ++
        [⟨.agentResult src.agentID, .ok []⟩]) (.ret (.ok [])) := by
    have hagent := @Logs.lift _ _ _ Call Reply .agent (fun _ r => r) (fun _ r => r) (fun _ _ => rfl)
      _ _ _ hcollect
    exact .cons _ ((hagent.bind _).trans (.cons _ .nil))
  -- what comes before it, and what after
  let report (res : Option Execute.Err) : ExecM (Option Execute.Err) :=
    .call (.finishSource 0 (sourceOutcome res)) fun () => .ret res
  have hbefore : Logs (Execute.backupAgentJob j runID)
      [⟨.agentByID src.agentID, .ok ⟨"guest", true⟩⟩, ⟨.planSources [⟨0, .agent, src.agentID⟩], ()⟩,
        ⟨.beginSource 0, ()⟩]
      (backupAgent j.job runID src.agentID "guest" hid src.paths >>= report) := by
    unfold Execute.backupAgentJob
    rw [hsources]
    dsimp only
    rw [dif_neg hid]
    refine .cons _ ?_
    dsimp only
    rw [if_neg (by simp), if_neg hpaths, if_neg hblank]
    exact .cons _ (.cons _ .nil)
  have hafter : Logs (recordAgent j.job runID src.agentID "guest" hid [] >>= report)
      (log₂ ++ [⟨.finishSource 0 .success, ()⟩]) (.ret none) := (hrecord.bind _).trans (.cons _ .nil)
  have hundispatched : ∀ ev ∈ log₂ ++ [⟨.finishSource 0 .success, ()⟩],
      ∀ agentID paths, ev.1 ≠ .runBackup agentID paths := by
    intro ev hev agentID paths
    rcases List.mem_append.mp hev with hev | hev
    · have hcalls : Calls (fun c => c ≠ .runBackup agentID paths)
          (recordAgent j.job runID src.agentID "guest" hid []) :=
        ⟨nofun, fun _ => (Calls.lift (Calls.lift ((calls_true _).mono fun _ _ => nofun))).bind
          fun _ => trivial⟩
      exact hcalls.logs hrecord ev hev
    · rw [List.mem_singleton.mp hev]
      nofun
  have hjob : ∃ log, Logs (backupAgentJob sha256 s j runID) log (.ret none) ∧
      (⟨.agent (.writeTar src.paths s.excludePaths), ⟨[⟨tarEnd, some .eof⟩], none⟩⟩ : Event) ∈ log ∧
      (⟨.exec (.finishSource 0 .success), ()⟩ : Event) ∈ log := by
    have hfirst := onAgent_logs sha256 s runID hbefore (by simp)
    have hlast := onAgent_logs sha256 s runID hafter hundispatched
    refine ⟨_, hfirst.trans ((hrun.bind _).trans hlast), List.mem_append_right _
      (List.mem_append_left _ (List.mem_append_left _ (.tail _ ?_))), List.mem_append_right _
      (List.mem_append_right _ ?_)⟩
    · exact List.mem_map.mpr ⟨_, hmoved, rfl⟩
    · exact List.mem_map.mpr ⟨_, List.mem_append_right _ (.head _), rfl⟩
  obtain ⟨log, hlog, htar, hfinish⟩ := hjob
  have hjob : backupJob sha256 lower s j runID = backupAgentJob sha256 s j runID := by
    rw [backupJob, hkind]
  refine ⟨⟨.exec (.guest (.sched (.openTarget j.job.targetID))), .ok ()⟩ ::
    ⟨.exec (.guest (.sched (.markTargetActive j.job.targetID))), ()⟩ :: log,
    exec (Execute.endAttempt e j.job.targetID none), ?_, ?_,
    ⟨_, .tail _ (.tail _ htar), trivial⟩, .tail _ (.tail _ hfinish)⟩
  · refine .cons _ ?_
    refine .cons _ ?_
    rw [hjob]
    exact hlog.bind _
  · refine List.forall_mem_cons.mpr ⟨nofun, List.forall_mem_cons.mpr ⟨nofun, ?_⟩⟩
    exact backupAgentJob_unshelled.logs hlog

theorem heeded_of_guarded (h : Guarded s (backupAttempt sha256 lower s e j runID)) : Heeded s j := by
  by_contra hheeded
  simp only [Heeded, not_or, not_and] at hheeded
  obtain ⟨hvm, hscripts, hrefused⟩ := hheeded
  have hkind : j.job.kind = .agent := by
    cases hkind : j.job.kind with
    | vm => exact absurd hkind hvm
    | agent => rfl
  obtain ⟨log, q, hlog, hshell, ⟨ev, hmoved, hmoves⟩, hfinish⟩ :=
    exists_dispatched sha256 lower s e runID hkind hrefused
  have hsteps := (h log q hlog).1
  have hnone : ∀ l₁ ev l₂, log = l₁ ++ ev :: l₂ →
      (l₁.foldl (note s) .fresh).pre = false ∧ (l₁.foldl (note s) .fresh).post = false := by
    rintro l₁ ev l₂ rfl
    exact foldl_unshelled (fun ev hev => hshell ev (List.mem_append_left _ hev)) rfl rfl
  have hpre : s.preScript = "" := by
    obtain ⟨l₁, l₂, hsplit⟩ := List.append_of_mem hmoved
    rcases (hsteps _ _ _ hsplit).1 hmoves with h | h
    · exact h
    · rw [Watch.ran, (hnone _ _ _ hsplit).1] at h
      cases h
  obtain ⟨l₁, l₂, hsplit⟩ := List.append_of_mem hfinish
  rcases (hsteps _ _ _ hsplit).2 0 rfl with h | h
  · exact hscripts hpre h
  · rw [Watch.ran, (hnone _ _ _ hsplit).2] at h
    cases h

/-- The data of an attempt is guarded by its scripts exactly where the job is one of
machines, has no scripts, or is refused. -/
theorem guarded_iff (sha256 : Bytes → Sha) (lower : Char → Char) (s : DataPolicy) (e : Engine)
    (j : BackupJob) (runID : String) :
    Guarded s (backupAttempt sha256 lower s e j runID) ↔ Heeded s j := by
  refine ⟨heeded_of_guarded, fun h => guarded_of_watched (backupAttempt_watched ?_)⟩
  unfold backupJob
  cases hkind : j.job.kind with
  | vm => exact backupVMJob_watched nofun
  | agent =>
    rcases h with h | ⟨hpre, hpost⟩ | h
    · rw [hkind] at h
      cases h
    · exact unscripted_watched hpre hpost
    · exact refused_watched h

def scriptedJob : BackupJob where
  job := ⟨"job1", "files", .agent, "t1", ⟨1, 0, 0, 0, 0⟩⟩
  sources := [⟨"", 0, "", "a1", ["/srv"]⟩]
  tagFilter := ""
  policy := ⟨[], 0, 5, 0⟩

theorem agent_unguarded :
    ¬ Guarded ⟨"exit 1", "", []⟩ (backupAttempt (fun _ => "c") id ⟨"exit 1", "", []⟩
      (newWithOptions (fun _ => "c") ⟨none, none⟩ ⟨1, "off", 0⟩) scriptedJob "run1") := by
  intro h
  rcases heeded_of_guarded h with h | ⟨h, -⟩ | h | h | h
  · cases h
  · exact absurd h (by decide)
  · exact absurd h (by decide)
  · cases h
  · exact absurd h (by decide +kernel)

end ProxBack.Sched.Scripts
