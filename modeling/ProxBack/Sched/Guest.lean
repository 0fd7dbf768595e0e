import ProxBack.Engine.StreamEnd
import ProxBack.Sched.Backup

/-! The backup of one guest with the streams it reads: a whole-guest archive from the
helper of its node, or one export for each disk of a snapshot. -/
namespace ProxBack.Sched.Guest
open Lib Prog Engine Store

/-- Why the export of a disk could not be opened: an answer of the host, or no answer. -/
inductive ExportFault where
  | api (status : Nat)
  | transport (f : Fault)
deriving DecidableEq, Repr

inductive Err where
  | sched (err : Sched.Err)
  | snapshot (name : String) (f : Fault)
  | exportDisk (err : ExportFault)
  | noHelper (node : String) (err : ExportFault)
  | viaHelper (name node : String) (f : Fault)
  | endedEarly (name node : String) (size : Int) (err : Engine.Err)
  | noData (name node : String)
deriving DecidableEq

/-- A guest to back up. `helper` is whether its node has a helper; the disks are those
that the policy left in. -/
structure VmPlan where
  node : String
  name : String
  sourceID : String
  disks : List String
  helper : Bool
  sourceID_ne : sourceID ≠ ""

/-- The calls of `backupOneVM`: the scheduler's own, those on the snapshot, the opening
and closing of a stream, the engine's `BackupStream` of it, and the session's counters. -/
inductive Call where
  | sched (c : Sched.Call)
  | createSnapshot
  | deleteSnapshot
  | waitTask (upid : String)
  | exportDisk (disk : String)
  | exportGuest
  | backupStream (name : String) (script : List ReadReply)
  | close
  | stats

abbrev Reply : Call → Type
  | .sched c => Sched.Reply c
  | .createSnapshot | .deleteSnapshot => Except Fault String
  | .waitTask _ => Except Fault Unit
  | .exportDisk _ => Except ExportFault (List ReadReply)
  | .exportGuest => Except Fault (List ReadReply)
  | .backupStream _ _ => Streamed
  | .close => Option Fault
  | .stats => Stats

abbrev GuestM (α : Type) := Prog Call Reply α

def sched {α : Type} (p : SchedM α) : GuestM α := p.lift .sched fun _ r => r

def mapExportError (err : ExportFault) (node : String) : Err :=
  match err with
  | .transport _ => .exportDisk err
  | .api status =>
    if status ≠ 501 ∧ status ≠ 404 then .exportDisk err else .noHelper node err

def vmaStreamName : String := "vma"

def backupViaHelper (p : VmPlan) : GuestM (Except Err (List DiskManifest)) :=
  .call .exportGuest fun
  | .error f => .ret (.error (.viaHelper p.name p.node f))
  | .ok script =>
    .call (.backupStream vmaStreamName script) fun out =>
    .call .close fun _ =>
    match out.result with
    | .error err => .ret (.error (.sched (.engine err)))
    | .ok dm =>
      match errTrackingReader script out.left with
      | some err => .ret (.error (.endedEarly p.name p.node dm.sizeBytes err))
      | none =>
        if dm.sizeBytes = 0 then .ret (.error (.noData p.name p.node)) else .ret (.ok [dm])

/-- The loop of `exportDisks`. -/
def exportLoop (node : String) :
    List String → List DiskManifest → GuestM (Except Err (List DiskManifest))
  | [], out => .ret (.ok out)
  | disk :: rest, out =>
    .call (.exportDisk disk) fun
    | .error err => .ret (.error (mapExportError err node))
    | .ok script =>
      .call (.backupStream disk script) fun r =>
      .call .close fun _ =>
      match r.result with
      | .error err => .ret (.error (.sched (.engine err)))
      | .ok dm => exportLoop node rest (out ++ [dm])

def exportDisks (p : VmPlan) : GuestM (Except Err (List DiskManifest)) :=
  exportLoop p.node p.disks [] >>= fun out =>
  .call .deleteSnapshot fun
  | .error _ => .ret out
  | .ok upid => .call (.waitTask upid) fun _ => .ret out

def exported (p : VmPlan) : GuestM (Except Err (List DiskManifest)) :=
  if p.helper then backupViaHelper p
  else
    .call .createSnapshot fun
    | .error f => .ret (.error (.snapshot p.name f))
    | .ok upid =>
      .call (.waitTask upid) fun
      | .error f => .ret (.error (.snapshot p.name f))
      | .ok () => exportDisks p

/-- What follows the streams: the counters, the manifest and the row, the post-script and
the retention. -/
def record (job : Job) (runID : String) (p : VmPlan) (before : Stats)
    (disks : List DiskManifest) : GuestM (Option Err) :=
  .call .stats fun after =>
  sched (recordBackup job runID .vm (.byWorkers p.sourceID p.name p.sourceID_ne)
    (disks, after.bytesUploaded - before.bytesUploaded) <|
      .call (.script .post) fun
      | .error f => .ret (some (.script .post f))
      | .ok () => applyRetention job.targetID job.retention .vm p.sourceID) >>= fun err =>
  .ret (err.map .sched)

def backupOneVM (job : Job) (runID : String) (p : VmPlan) (before : Stats) :
    GuestM (Option Err) :=
  .call (.sched (.script .pre)) fun
  | .error f => .ret (some (.sched (.script .pre f)))
  | .ok () =>
    exported p >>= fun
    | .error err => .ret (some err)
    | .ok disks => record job runID p before disks

def Call.Records : Call → Prop
  | .sched (.createBackup _) | .sched (.engine _ (.putManifest _ _)) => True
  | _ => False

def Call.Opens : Call → Prop
  | .exportDisk _ | .exportGuest => True
  | _ => False

theorem exportLoop_calls (node : String) (disks : List String) (out : List DiskManifest) :
    Calls (fun c => ¬ c.Records) (exportLoop node disks out) := by
  induction disks generalizing out with
  | nil => trivial
  | cons disk rest ih =>
    refine ⟨id, ?_⟩
    rintro (err | script)
    · trivial
    · refine ⟨id, fun r => ⟨id, fun _ => ?_⟩⟩
      dsimp only
      split
      · trivial
      · exact ih _

theorem exported_calls (p : VmPlan) : Calls (fun c => ¬ c.Records) (exported p) := by
  unfold exported
  split
  · refine ⟨id, ?_⟩
    rintro (f | script)
    · trivial
    · refine ⟨id, fun out => ⟨id, fun _ => ?_⟩⟩
      dsimp only
      split
      · trivial
      · split
        · trivial
        · split <;> trivial
  · refine ⟨id, ?_⟩
    rintro (f | upid)
    · trivial
    · refine ⟨id, ?_⟩
      rintro (f | ⟨⟩)
      · trivial
      · refine (exportLoop_calls _ _ _).bind fun out => ⟨id, ?_⟩
        rintro (f | upid)
        · trivial
        · exact ⟨id, fun _ => trivial⟩

theorem record_calls (job : Job) (runID : String) (p : VmPlan) (before : Stats)
    (disks : List DiskManifest) :
    Calls (fun c => ¬ c.Opens) (record job runID p before disks) := by
  refine ⟨id, fun after => Calls.bind (Calls.lift ?_) fun _ => trivial⟩
  refine (parentFor_calls id).bind ?_
  rintro (err | parentID)
  · trivial
  refine ⟨id, fun backupID => ⟨id, fun createdAt => ?_⟩⟩
  have hman : ∀ man : Manifest,
      Calls (fun c => ¬ (Call.sched c).Opens) (onTarget job.targetID (writeManifest man)) :=
    fun man => ⟨id, fun _ => trivial⟩
  refine (hman _).bind ?_
  rintro (err | ⟨⟩)
  · trivial
  refine ⟨id, ?_⟩
  rintro (err | ⟨⟩)
  · trivial
  refine ⟨id, ?_⟩
  rintro (f | ⟨⟩)
  · trivial
  exact applyRetention_calls (fun _ => id) (fun _ => id) (fun _ => id) (fun _ => id) _ _ _

end ProxBack.Sched.Guest
