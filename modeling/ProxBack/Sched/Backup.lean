import ProxBack.Sched.Retention

/-! The scheduler's operations on restore points, as programs of calls: an attempt at a
backup job, and the removal of one restore point. -/
namespace ProxBack.Sched
open Lib Prog Engine Store

def Call.Streams : Call → Prop
  | .engine _ (.putManifest _ _) | .engine _ (.deleteManifest _) => False
  | .engine _ _ | .exported => True
  | _ => False

/-- One source of a job, and how its chunks get to the target: by calls of the run's own,
or by workers that it waits for. -/
structure Plan where
  sourceID : String
  name : String
  exported : SchedM (Except Engine.Err Exported)
  sourceID_ne : sourceID ≠ ""
  streams : Calls Call.Streams exported

def Plan.byWorkers (sourceID name : String) (h : sourceID ≠ "") : Plan where
  sourceID := sourceID
  name := name
  exported := .call Call.exported .ret
  sourceID_ne := h
  streams := ⟨trivial, fun _ => trivial⟩

def parentFor (sourceKind : SourceKind) (sourceID targetID : String) :
    SchedM (Except Err String) :=
  .call (.latestBackupForSource sourceKind sourceID targetID) fun
  | .ok prev => .ret (.ok prev.id)
  | .error err => if err = .notFound then .ret (.ok "") else .ret (.error (.store err))

def newManifest (job : Job) (runID : String) (sourceKind : SourceKind) (p : Plan)
    (disks : List DiskManifest) (uploaded : Nat) (parentID backupID : String) (createdAt : Time) :
    Manifest where
  backupID := backupID
  jobID := job.id
  jobName := job.name
  runID := runID
  sourceKind := sourceKind
  sourceID := p.sourceID
  sourceName := p.name
  targetID := job.targetID
  createdAt := createdAt
  kind := Engine.kind parentID
  parentID := parentID
  sizeBytes := (disks.map DiskManifest.sizeBytes).sum
  uploadedBytes := uploaded
  chunkSize := Engine.chunkSize
  disks := disks

def newBackup (man : Manifest) (h : man.sourceID ≠ "") : Backup where
  id := man.backupID
  jobID := man.jobID
  runID := man.runID
  sourceKind := man.sourceKind
  sourceID := man.sourceID
  sourceName := man.sourceName
  targetID := man.targetID
  createdAt := man.createdAt
  sizeBytes := man.sizeBytes
  uploadedBytes := man.uploadedBytes
  kind := man.kind
  parentID := man.parentID
  disks := man.disks.map fun d => ⟨d.name, d.sizeBytes⟩
  sourceID_ne := h

/-- What follows the streams of a source, for machines and agents alike: the manifest,
then the row, then what the caller has left to do. -/
def recordBackup (job : Job) (runID : String) (sourceKind : SourceKind) (p : Plan)
    (out : Exported) (rest : SchedM (Option Err)) : SchedM (Option Err) :=
  parentFor sourceKind p.sourceID job.targetID >>= fun
  | .error err => .ret (some err)
  | .ok parentID =>
    .call .newID fun backupID =>
    .call .now fun createdAt =>
    let man := newManifest job runID sourceKind p out.1 out.2 parentID backupID createdAt
    onTarget job.targetID (writeManifest man) >>= fun
    | .error err => .ret (some (.engine err))
    | .ok () =>
      .call (.createBackup (newBackup man p.sourceID_ne)) fun
      | .error err => .ret (some (.store err))
      | .ok () => rest

def backupOneVM (job : Job) (runID : String) (p : Plan) : SchedM (Option Err) :=
  .call (.script .pre) fun
  | .error f => .ret (some (.script .pre f))
  | .ok () =>
    p.exported >>= fun
    | .error err => .ret (some (.engine err))
    | .ok out =>
      recordBackup job runID .vm p out <|
        .call (.script .post) fun
        -- The restore point stays: it is real whatever the script did.
        | .error f => .ret (some (.script .post f))
        | .ok () => applyRetention job.targetID job.retention .vm p.sourceID

def backupVMJob (job : Job) (runID : String) : List Plan → SchedM (Option Err)
  | [] => .ret none
  | p :: rest =>
    .call .ctxErr fun
    | some f => .ret (some (.ctx f))
    | none => backupOneVM job runID p >>= fun
      | some err => .ret (some err)
      | none => backupVMJob job runID rest

def backupAgentJob (job : Job) (runID : String) (p : Plan) : SchedM (Option Err) :=
  p.exported >>= fun
  | .error err => .ret (some (.engine err))
  | .ok out =>
    recordBackup job runID .agent p out (applyRetention job.targetID job.retention .agent p.sourceID)

inductive Planned where
  | failed (err : Err)
  | vms (plans : List Plan)
  | agent (p : Plan)

def backupJob (job : Job) (runID : String) : Planned → SchedM (Option Err)
  | .failed err => .ret (some err)
  | .vms plans => backupVMJob job runID plans
  | .agent p => backupAgentJob job runID p

/-- The deferred end of an attempt: only one that got all the way to its manifests, and
that leaves the target idle, collects. -/
def endAttempt (e : Engine) (targetID : String) (runErr : Option Err) : SchedM (Option Err) :=
  .call (.markTargetIdle targetID) fun idle =>
    if ¬ idle ∨ runErr ≠ none then .ret runErr
    else
      .call .ctxErr fun
      | some _ => .ret runErr
      | none => onTarget targetID e.gc >>= fun _ => .ret runErr

def backupAttempt (e : Engine) (job : Job) (runID : String) (planned : Planned) :
    SchedM (Option Err) :=
  .call (.openTarget job.targetID) fun
  | .error err => .ret (some (.loadTarget err))
  | .ok () =>
    .call (.markTargetActive job.targetID) fun () =>
    backupJob job runID planned >>= endAttempt e job.targetID

def removeBackup (backupID : String) : SchedM (Except Err String) :=
  .call (.backupByID backupID) fun
  | .error err => .ret (.error (.store err))
  | .ok b =>
    .call (.openTarget b.targetID) fun
    | .error err => .ret (.error (.loadTarget err))
    | .ok () =>
      onTarget b.targetID (deleteManifest b.key) >>= fun
      | .error err => .ret (.error (.engine err))
      | .ok () =>
        .call (.clearBackupParent b.id) fun
        | .error err => .ret (.error (.store err))
        | .ok () =>
          .call (.deleteBackup b.id) fun
          | .error err => .ret (.error (.store err))
          | .ok () => .ret (.ok b.targetID)

def deleteBackup (e : Engine) (backupID : String) : SchedM (Option Err) :=
  removeBackup backupID >>= fun
  | .error err => .ret (some err)
  | .ok targetID =>
    .call (.targetIdle targetID) fun idle =>
      if idle then onTarget targetID e.gc >>= fun out => .ret (out.2.map .engine)
      else .ret none

section Calls

variable {P : Call → Prop}

theorem onTarget_calls {α : Type} {targetID : String} {p : EngineM α}
    (h : Calls (fun c => P (.engine targetID c)) p) : Calls P (onTarget targetID p) := h.lift

theorem pruneLoop_calls {targetID : String} (hman : ∀ key, P (.engine targetID (.deleteManifest key)))
    (hclear : ∀ id, P (.clearBackupParent id)) (hdelete : ∀ id, P (.deleteBackup id))
    (list : List Backup) (ds : List RetentionDecision) : Calls P (pruneLoop targetID list ds) := by
  have hgone : ∀ key, Calls P (onTarget targetID (deleteManifest key)) :=
    fun key => ⟨hman key, fun _ => trivial⟩
  induction ds with
  | nil => trivial
  | cons d ds ih =>
    unfold pruneLoop
    split
    · exact ih
    · refine (hgone _).bind ?_
      rintro (err | ⟨⟩)
      · trivial
      · refine ⟨hclear _, ?_⟩
        rintro (err | ⟨⟩)
        · trivial
        · refine ⟨hdelete _, ?_⟩
          rintro (err | ⟨⟩)
          · dsimp only
            split
            · exact ih
            · trivial
          · exact ih

theorem applyRetention_calls {targetID : String} (hlist : ∀ f, P (.listBackups f))
    (hman : ∀ key, P (.engine targetID (.deleteManifest key)))
    (hclear : ∀ id, P (.clearBackupParent id)) (hdelete : ∀ id, P (.deleteBackup id))
    (policy : RetentionPolicy) (sourceKind : SourceKind) (sourceID : String) :
    Calls P (applyRetention targetID policy sourceKind sourceID) := by
  unfold applyRetention
  split
  · trivial
  refine ⟨hlist _, ?_⟩
  rintro (err | list)
  · trivial
  dsimp only
  split
  · trivial
  split
  · trivial
  split
  · trivial
  · exact pruneLoop_calls hman hclear hdelete list _

theorem parentFor_calls {sourceKind : SourceKind} {sourceID targetID : String}
    (hlatest : P (.latestBackupForSource sourceKind sourceID targetID)) :
    Calls P (parentFor sourceKind sourceID targetID) := by
  refine ⟨hlatest, ?_⟩
  rintro (err | prev)
  · dsimp only
    split <;> trivial
  · trivial

theorem endAttempt_calls {targetID : String} (hidle : P (.markTargetIdle targetID))
    (hctx : P .ctxErr) {e : Engine} (hgc : Calls (fun c => P (.engine targetID c)) e.gc)
    (runErr : Option Err) : Calls P (endAttempt e targetID runErr) := by
  refine ⟨hidle, fun idle => ?_⟩
  dsimp only
  split
  · trivial
  · refine ⟨hctx, ?_⟩
    rintro (- | f)
    · exact (onTarget_calls hgc).bind fun _ => trivial
    · trivial

theorem removeBackup_calls (hrow : ∀ id, P (.backupByID id)) (hopen : ∀ id, P (.openTarget id))
    (hman : ∀ targetID key, P (.engine targetID (.deleteManifest key)))
    (hclear : ∀ id, P (.clearBackupParent id)) (hdelete : ∀ id, P (.deleteBackup id))
    (backupID : String) : Calls P (removeBackup backupID) := by
  refine ⟨hrow _, ?_⟩
  rintro (err | b)
  · trivial
  refine ⟨hopen _, ?_⟩
  rintro (err | ⟨⟩)
  · trivial
  refine ⟨hman _ _, ?_⟩
  rintro (err | ⟨⟩)
  · trivial
  refine ⟨hclear _, ?_⟩
  rintro (err | ⟨⟩)
  · trivial
  refine ⟨hdelete _, ?_⟩
  rintro (err | ⟨⟩) <;> trivial

end Calls

theorem backupVMJob_wp {σ : Type} {T : (c : Call) → σ → Reply c → σ → Prop}
    {pre : Call → σ → Prop} {job : Job} {runID : String} {plans : List Plan}
    (hctx : ∀ s, pre .ctxErr s)
    (hone : ∀ p ∈ plans, ∀ s, Wp T pre (fun _ _ => True) (backupOneVM job runID p) s) (s : σ) :
    Wp T pre (fun _ _ => True) (backupVMJob job runID plans) s := by
  induction plans generalizing s with
  | nil => trivial
  | cons p plans ih =>
    refine ⟨hctx s, ?_⟩
    rintro (- | f) s _
    · refine (wp_bind _ _ _).mpr ((hone p List.mem_cons_self s).post_mono ?_)
      rintro (- | err) s _
      · exact ih (fun q hq => hone q (List.mem_cons_of_mem p hq)) s
      · trivial
    · trivial

end ProxBack.Sched
