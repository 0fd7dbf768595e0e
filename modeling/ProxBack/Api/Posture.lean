import ProxBack.Sched.Execute
import ProxBack.Store.Schedule

/-! The protection posture: which job governs a workload, and what its rows say of it. -/
namespace ProxBack.Api
open Store
open Engine (SourceKind Time)
open Sched.Execute (BackupJob SourceStatus vmSourceID)

def jobCoversVM (lower : Char → Char) (j : BackupJob) (vm : VM) : Bool :=
  if j.job.kind ≠ .vm then false
  else if j.tagFilter ≠ "" then vm.hasTag lower j.tagFilter
  else j.sources.any fun src => src.hostID = vm.hostID ∧ src.vmid = vm.vmid

def jobCoversAgent (j : BackupJob) (agentID : String) : Bool :=
  if j.job.kind ≠ .agent then false else j.sources.any fun src => src.agentID = agentID

structure PostureJob extends BackupJob where
  enabled : Bool
  schedule : Schedule

/-- Any objective beats none, a tighter one beats a looser one, and the name breaks ties. -/
def moreProtective (rpo : Option Time) (name : String) (bestRPO : Option Time) (bestName : String) :
    Bool :=
  match rpo, bestRPO with
  | some _, none => true
  | none, some _ => false
  | some r, some b => if r ≠ b then r < b else name < bestName
  | none, none => name < bestName

def governingJob (jobs : List PostureJob) (member : PostureJob → Bool) : Option PostureJob :=
  jobs.foldl (fun best j =>
    if ¬ j.enabled ∨ ¬ member j then best
    else
      match best with
      | none => some j
      | some b =>
        if moreProtective j.schedule.rpo j.job.name b.schedule.rpo b.job.name then some j else best)
    none

inductive PostureStatus where
  | isProtected
  | atRisk
  | unprotected
deriving DecidableEq, Repr

inductive Verdict where
  | isProtected
  | atRisk
  | unprotected
  | unknown
deriving DecidableEq, Repr

inductive Reason where
  | noJob
  | noRestorePoints
  | lastRunFailed
  | rpoExceeded
deriving DecidableEq, Repr

structure SourceOutcome where
  status : SourceStatus
  finishedAt : Time
deriving DecidableEq, Repr

structure PostureWorkload where
  kind : SourceKind
  id : String
  name : String
  job : Option PostureJob
  lastSuccessAt : Option Time
  lastFailureAt : Option Time
  lastOutcomeFailed : Bool
  restorePoints : Nat

structure PostureEntry where
  kind : SourceKind
  id : String
  name : String
  policy : Option String
  rpo : Option Time
  age : Option Time
  withinRPO : Option Bool
  lastSuccessAt : Option Time
  lastFailureAt : Option Time
  restorePoints : Nat
  status : PostureStatus
  reasons : List Reason

structure Posture where
  verdict : Verdict
  protectedCount : Nat
  atRiskCount : Nat
  unprotectedCount : Nat
  reasons : List (Reason × Nat)
  workloads : List PostureEntry

def withinRPO (rpo : Time) (lastSuccessAt : Option Time) (now : Time) : Bool :=
  match lastSuccessAt with
  | none => false
  | some t => now - t ≤ rpo + rpoGrace rpo

def concerns (w : PostureWorkload) (rpo : Option Time) (now : Time) : List Reason :=
  (if w.restorePoints = 0 then [.noRestorePoints] else []) ++
    (if w.lastOutcomeFailed then [.lastRunFailed] else []) ++
    match rpo with
    | none => []
    | some rpo =>
      if ¬ withinRPO rpo w.lastSuccessAt now ∧ w.restorePoints > 0 then [.rpoExceeded] else []

/-- One turn of `evaluatePosture`'s loop. -/
def evaluateWorkload (w : PostureWorkload) (now : Time) : PostureEntry :=
  let rpo := w.job.bind fun j => j.schedule.rpo
  let reasons := match w.job with
    | none => [.noJob]
    | some _ => concerns w rpo now
  { kind := w.kind
    id := w.id
    name := w.name
    policy := w.job.map fun j => j.job.name
    rpo
    age := w.lastSuccessAt.map fun t => if now - t < 0 then 0 else now - t
    withinRPO := rpo.map fun rpo => withinRPO rpo w.lastSuccessAt now
    lastSuccessAt := w.lastSuccessAt
    lastFailureAt := w.lastFailureAt
    restorePoints := w.restorePoints
    status := match w.job with
      | none => .unprotected
      | some _ => if reasons = [] then .isProtected else .atRisk
    reasons }

/-- The reasons in a stable order, worst first, with how many workloads each applies to. -/
def postureReasons (entries : List PostureEntry) : List (Reason × Nat) :=
  ([.noJob, .noRestorePoints, .lastRunFailed, .rpoExceeded].map fun reason =>
    (reason, (entries.flatMap PostureEntry.reasons).count reason)).filter fun x => x.2 ≠ 0

def evaluatePosture (workloads : List PostureWorkload) (now : Time) : Posture :=
  let entries := workloads.map fun w => evaluateWorkload w now
  let count (status : PostureStatus) := (entries.map PostureEntry.status).count status
  { verdict :=
      if workloads = [] then .unknown
      else if count .unprotected > 0 then .unprotected
      else if count .atRisk > 0 then .atRisk
      else .isProtected
    protectedCount := count .isProtected
    atRiskCount := count .atRisk
    unprotectedCount := count .unprotected
    reasons := postureReasons entries
    workloads := entries }

/-- The workload with what its rows say: its restore points, and its last outcome. -/
def collectWorkload (backups : List Backup) (outcomes : String → Option SourceOutcome)
    (kind : SourceKind) (id name : String) (job : Option PostureJob) : PostureWorkload :=
  let points := backups.filter fun b => b.sourceKind = kind ∧ b.sourceID = id
  let failed := (outcomes id).filter fun o => o.status = .failed
  { kind
    id
    name
    job
    lastSuccessAt := (points.map Backup.createdAt).max?
    lastFailureAt := failed.map SourceOutcome.finishedAt
    lastOutcomeFailed := failed.isSome
    restorePoints := points.length }

structure AgentRow where
  id : String
  hostname : String
deriving DecidableEq, Repr

/-- The workloads that `handlePosture` evaluates. -/
def collectWorkloads (lower : Char → Char) (jobs : List PostureJob) (vms : List VM)
    (agents : List AgentRow) (backups : List Backup) (outcomes : String → Option SourceOutcome) :
    List PostureWorkload :=
  (vms.map fun vm => collectWorkload backups outcomes .vm (vmSourceID vm.hostID vm.vmid) vm.name
    (governingJob jobs fun j => jobCoversVM lower j.toBackupJob vm)) ++
  agents.map fun a => collectWorkload backups outcomes .agent a.id a.hostname
    (governingJob jobs fun j => jobCoversAgent j.toBackupJob a.id)

theorem status_of_failed {w : PostureWorkload} (h : w.lastOutcomeFailed = true) (now : Time) :
    (evaluateWorkload w now).status ≠ .isProtected := by
  unfold evaluateWorkload
  dsimp only
  cases w.job with
  | none => nofun
  | some j =>
    have hne : concerns w j.schedule.rpo now ≠ [] := by
      unfold concerns
      rw [if_pos h]
      simp
    dsimp only [Option.bind_some]
    rw [if_neg hne]
    nofun

end ProxBack.Api
