import ProxBack.Sched.Plan

/-! A run of a backup job: attempts under the job's run control, each of which plans its
sources anew and backs all of them up. -/
namespace ProxBack.Sched.Execute
open Lib Text Prog Engine Store
open Guest (VmPlan)

def faultCanceled : Fault → Bool
  | .canceled => true
  | _ => false

def engineCanceled : Engine.Err → Bool
  | .fault f => faultCanceled f
  | .chunkIndex err | .rateLimit err | .storeChunk _ _ err | .readStream _ err
  | .restore _ err | .restoreWrite _ err | .gcChunkIndex err => engineCanceled err
  | _ => false

def storeCanceled : Store.Err → Bool
  | .notFound => false
  | .failed _ f => faultCanceled f

def schedCanceled : Sched.Err → Bool
  | .engine err => engineCanceled err
  | .store err | .loadTarget err => storeCanceled err
  | .script _ f | .ctx f => faultCanceled f

def exportCanceled : Guest.ExportFault → Bool
  | .api _ => false
  | .transport f => faultCanceled f

def guestCanceled : Guest.Err → Bool
  | .sched err => schedCanceled err
  | .snapshot _ f | .viaHelper _ _ f => faultCanceled f
  | .exportDisk err | .noHelper _ err => exportCanceled err
  | .endedEarly _ _ _ err => engineCanceled err
  | .noData _ _ => false

def planCanceled : PlanErr → Bool
  | .listVMs f | .findNode f | .config f | .helper _ f => faultCanceled f
  | .loadHost err | .loadAgent err => storeCanceled err
  | _ => false

def Err.canceled : Err → Bool
  | .guest err => guestCanceled err
  | .plan err => planCanceled err
  | .agentRun f => faultCanceled f
  | .maxDuration _ => false

def sourceOutcome : Option Err → SourceStatus
  | none => .success
  | some err => if err.canceled then .skipped else .failed

def sched {α : Type} (p : SchedM α) : ExecM α := guest (Guest.sched p)

section
variable (lower : Char → Char)

/-- The loop of `backupVMJob`. -/
def backupLoop (job : Job) (runID : String) : Nat → List VmPlan → ExecM (Option Err)
  | _, [] => .ret none
  | i, p :: rest =>
    .call (.guest (.sched .ctxErr)) fun
    | some f => .ret (some (.guest (.sched (.ctx f))))
    | none =>
      .call (.guest .stats) fun before =>
      .call (.beginSource i) fun () =>
      guest (Guest.backupOneVM job runID p before) >>= fun res =>
      .call (.finishSource i (sourceOutcome (res.map .guest))) fun () =>
      match res with
      | some err => .ret (some (.guest err))
      | none => backupLoop job runID (i + 1) rest

def plannedRows (plans : List VmPlan) : List PlannedSource :=
  plans.mapIdx fun i p => ⟨i, .vm, p.sourceID⟩

def backupVMJob (j : BackupJob) (runID : String) : ExecM (Option Err) :=
  planVMJob lower j >>= fun
  | .error err => .ret (some err)
  | .ok plans =>
    .call (.planSources (plannedRows plans)) fun () => backupLoop j.job runID 0 plans

def recordAgent (job : Job) (runID agentID hostname : String) (hid : agentID ≠ "")
    (disks : List DiskManifest) : ExecM (Option Err) :=
  .call (.guest .stats) fun snapshot =>
  sched (recordBackup job runID .agent (.byWorkers agentID hostname hid)
    (disks, snapshot.bytesUploaded)
    (applyRetention job.targetID job.retention .agent agentID)) >>= fun err =>
  .ret (err.map fun err => .guest (.sched err))

/-- What `backupAgentJob` does once its row is planned. -/
def backupAgent (job : Job) (runID agentID hostname : String) (hid : agentID ≠ "")
    (paths : List String) : ExecM (Option Err) :=
  .call (.runBackup agentID paths) fun
  | .error f => .ret (some (.agentRun f))
  | .ok disks => recordAgent job runID agentID hostname hid disks

def backupAgentJob (j : BackupJob) (runID : String) : ExecM (Option Err) :=
  match j.sources with
  | [] => .ret (some (.plan .noAgent))
  | src :: _ =>
    if hid : src.agentID = "" then .ret (some (.plan .noAgent))
    else
      .call (.agentByID src.agentID) fun
      | .error err => .ret (some (.plan (.loadAgent err)))
      | .ok agent =>
        if ¬ agent.online then .ret (some (.plan (.offline agent.hostname)))
        else if src.paths = [] then .ret (some (.plan .noPaths))
        else if src.paths.any fun p => trimSpace p.toList = [] then .ret (some (.plan .emptyPath))
        else
          .call (.planSources [⟨0, .agent, src.agentID⟩]) fun () =>
          .call (.beginSource 0) fun () =>
          backupAgent j.job runID src.agentID agent.hostname hid src.paths >>= fun res =>
          .call (.finishSource 0 (sourceOutcome res)) fun () => .ret res

def endAttempt (e : Engine) (targetID : String) (runErr : Option Err) : ExecM (Option Err) :=
  .call (.guest (.sched (.markTargetIdle targetID))) fun idle =>
    if ¬ idle ∨ runErr ≠ none then .ret runErr
    else
      .call (.guest (.sched .ctxErr)) fun
      | some _ => .ret runErr
      | none => sched (onTarget targetID e.gc) >>= fun _ => .ret runErr

def backupJob (j : BackupJob) (runID : String) : ExecM (Option Err) :=
  match j.job.kind with
  | .vm => backupVMJob lower j runID
  | .agent => backupAgentJob j runID

def backupAttempt (e : Engine) (j : BackupJob) (runID : String) : ExecM (Option Err) :=
  .call (.guest (.sched (.openTarget j.job.targetID))) fun
  | .error err => .ret (some (.guest (.sched (.loadTarget err))))
  | .ok () =>
    .call (.guest (.sched (.markTargetActive j.job.targetID))) fun () =>
    backupJob lower j runID >>= endAttempt e j.job.targetID

end

/-- The loop of `runUnderPolicy`, with as many attempts left as its first argument says.
It returns from the function without an error, or is left with one. -/
def tryLoop (delay : Int) (attempt : ExecM (Option Err)) : Nat → ExecM (Option (Option Err))
  | 0 => .ret (some none)
  | k + 1 =>
    attempt >>= fun
    | none => .ret none
    | some err =>
      .call .runCtxErr fun ctx =>
        if ctx ≠ none ∨ err.canceled then .ret (some (some err))
        else if k = 0 then .ret (some (some err))
        else
          .call (.retryWait delay) fun
          | some _ => .ret (some (some err))
          | none => tryLoop delay attempt k

def runUnderPolicy (policy : RunControl) (attempt : ExecM (Option Err)) : ExecM (Option Err) :=
  tryLoop policy.retryDelayMinutes attempt (policy.retryCount + 1).toNat >>= fun
  | none => .ret none
  | some err =>
    if policy.maxDurationMinutes > 0 then
      .call .runCtxErr fun ctx =>
        if ctx = some .deadlineExceeded then
          .ret (some (.maxDuration policy.maxDurationMinutes))
        else .ret err
    else .ret err

def executeBackup (lower : Char → Char) (e : Engine) (j : BackupJob) (runID : String) :
    ExecM (Option Err) :=
  runUnderPolicy j.policy.normalized (backupAttempt lower e j runID)

end ProxBack.Sched.Execute
