import ProxBack.Store.Jobs
import ProxBack.Sched.Guest

/-! What a run of a backup job finds to back up: the sources of the job, or the guests of
the cached inventory that carry its tag, each looked up on its host. -/
namespace ProxBack.Sched.Execute
open Lib Text Prog Engine Store
open Guest (VmPlan)

structure BackupJob where
  job : Job
  sources : List JobSource
  tagFilter : String
  policy : RunControl

def BackupJob.Accepted (j : BackupJob) : Prop :=
  validateJob (kindText j.job.kind) j.sources j.tagFilter = none ∧ j.policy.validate = none

structure DiskInfo where
  name : String
  sizeBytes : Nat
deriving DecidableEq, Repr

/-- A guest's configuration: its name if it has one, and what `ParseDisks` finds in it. -/
structure GuestConfig where
  name : String
  disks : List DiskInfo
deriving DecidableEq, Repr

structure AgentInfo where
  hostname : String
  online : Bool
deriving DecidableEq, Repr

inductive PlanErr where
  | listVMs (f : Fault)
  | noTag (tag : String)
  | noSources
  | badSource
  | loadHost (err : Store.Err)
  | findNode (f : Fault)
  | config (f : Fault)
  | noDisks (vmid : Int)
  | noDisksLeft (name : String)
  | helper (node : String) (f : Fault)
  | excludeDisksUnsupported (name node : String)
  | noAgent
  | loadAgent (err : Store.Err)
  | offline (hostname : String)
  | noPaths
  | emptyPath
deriving DecidableEq

inductive Err where
  | guest (err : Guest.Err)
  | plan (err : PlanErr)
  | agentRun (f : Fault)
  | maxDuration (minutes : Int)
deriving DecidableEq

inductive SourceStatus where
  | pending
  | running
  | success
  | failed
  | skipped
deriving DecidableEq, Repr

structure PlannedSource where
  seq : Nat
  kind : SourceKind
  sourceID : String
deriving DecidableEq, Repr

/-- The calls of a run of a backup job: those of the guests' backups, the look-ups of the
planning, the dispatch to an agent, the context and the wait between two attempts, and the
rows of the run's breakdown. -/
inductive Call where
  | guest (c : Guest.Call)
  | listCachedVMs
  | pveHost (hostID : String)
  | cachedVM (hostID : String) (vmid : Int)
  | findNodeForVM (hostID : String) (vmid : Int)
  | config (hostID node : String) (vmid : Int)
  | helperForNode (hostID node : String)
  | agentByID (id : String)
  | runBackup (agentID : String) (paths : List String)
  | runCtxErr
  | retryWait (minutes : Int)
  | planSources (rows : List PlannedSource)
  | beginSource (seq : Nat)
  | finishSource (seq : Nat) (status : SourceStatus)

abbrev Reply : Call → Type
  | .guest c => Guest.Reply c
  | .listCachedVMs => Except Fault (List VM)
  | .pveHost _ => Except Store.Err String
  | .cachedVM _ _ => Except Store.Err VM
  | .findNodeForVM _ _ => Except Fault String
  | .config _ _ _ => Except Fault GuestConfig
  | .helperForNode _ _ => Except Fault Bool
  | .agentByID _ => Except Store.Err AgentInfo
  | .runBackup _ _ => Except Fault (List DiskManifest)
  | .runCtxErr => Option Fault
  | .retryWait _ => Option Fault
  | .planSources _ => Unit
  | .beginSource _ => Unit
  | .finishSource _ _ => Unit

abbrev ExecM (α : Type) := Prog Call Reply α

def guest {α : Type} (p : Guest.GuestM α) : ExecM α := p.lift .guest fun _ r => r

def vmSourceID (hostID : String) (vmid : Int) : String := hostID ++ "_" ++ toString vmid

theorem vmSourceID_ne (hostID : String) (vmid : Int) : vmSourceID hostID vmid ≠ "" := by
  intro h
  have hlen := congrArg String.length h
  simp [vmSourceID] at hlen

section
variable (lower : Char → Char)

local instance lawfulText : LawfulBEq (List Char) := inferInstance

def resolveTagFilter (tagFilter : String) : ExecM (Except Err (List JobSource)) :=
  .call .listCachedVMs fun
  | .error f => .ret (.error (.plan (.listVMs f)))
  | .ok vms =>
    let out := (vms.filter fun v => v.hasTag lower tagFilter).map fun v =>
      ⟨v.hostID, v.vmid, v.name, "", []⟩
    if out = [] then .ret (.error (.plan (.noTag tagFilter))) else .ret (.ok out)

def applyDiskExclusions (disks : List DiskInfo) (exclude : List String) (vmName : String) :
    Except Err (List DiskInfo) :=
  if exclude = [] then .ok disks
  else
    let skip := exclude.map fun d => (trimSpace d.toList).map lower
    let kept := disks.filter fun d => d.name.toList.map lower ∉ skip
    if kept = [] then .error (.plan (.noDisksLeft vmName)) else .ok kept

/-- The name of a guest: the job's, else the inventory's, else the configuration's, else
one made from its number. -/
def guestName (name cfgName : String) (vmid : Int) : String :=
  if name ≠ "" then name else if cfgName ≠ "" then cfgName else "vm-" ++ toString vmid

/-- One turn of `planVMJob`'s loop, from where the node of the guest is known. -/
def planGuest (policy : RunControl) (src : JobSource) (name node : String) :
    ExecM (Except Err VmPlan) :=
  .call (.config src.hostID node src.vmid) fun
  | .error f => .ret (.error (.plan (.config f)))
  | .ok cfg =>
    let name := guestName name cfg.name src.vmid
    if cfg.disks = [] then .ret (.error (.plan (.noDisks src.vmid)))
    else
      match applyDiskExclusions lower cfg.disks policy.excludeDisks name with
      | .error err => .ret (.error err)
      | .ok disks =>
        .call (.helperForNode src.hostID node) fun
        | .error f => .ret (.error (.plan (.helper node f)))
        | .ok helper =>
          if helper ∧ policy.excludeDisks ≠ [] then
            .ret (.error (.plan (.excludeDisksUnsupported name node)))
          else
            .ret (.ok
              { node, name, sourceID := vmSourceID src.hostID src.vmid,
                disks := disks.map DiskInfo.name, helper, sourceID_ne := vmSourceID_ne _ _ })

/-- One turn of `planVMJob`'s loop, from where the host of the guest is known. -/
def planSource (policy : RunControl) (src : JobSource) : ExecM (Except Err VmPlan) :=
  .call (.cachedVM src.hostID src.vmid) fun cached =>
  let node := match cached with
    | .ok v => v.node
    | .error _ => ""
  let name := match cached with
    | .ok v => if src.name = "" then v.name else src.name
    | .error _ => src.name
  if node ≠ "" then planGuest lower policy src name node
  else
    .call (.findNodeForVM src.hostID src.vmid) fun
    | .error f => .ret (.error (.plan (.findNode f)))
    | .ok node => planGuest lower policy src name node

/-- What `planSource` does once it has the guest's name and node. -/
def planNode (policy : RunControl) (src : JobSource) (name node : String) :
    ExecM (Except Err VmPlan) :=
  if node ≠ "" then planGuest lower policy src name node
  else
    .call (.findNodeForVM src.hostID src.vmid) fun
    | .error f => .ret (.error (.plan (.findNode f)))
    | .ok node => planGuest lower policy src name node

/-- The loop of `planVMJob`; `known` are the hosts it has a client for. -/
def planLoop (policy : RunControl) :
    List JobSource → List String → List VmPlan → ExecM (Except Err (List VmPlan))
  | [], _, plans => .ret (.ok plans)
  | src :: rest, known, plans =>
    if src.hostID = "" ∨ src.vmid = 0 then .ret (.error (.plan .badSource))
    else
      let go (known : List String) : ExecM (Except Err (List VmPlan)) :=
        planSource lower policy src >>= fun
        | .error err => .ret (.error err)
        | .ok p => planLoop policy rest known (plans ++ [p])
      if src.hostID ∈ known then go known
      else
        .call (.pveHost src.hostID) fun
        | .error err => .ret (.error (.plan (.loadHost err)))
        | .ok _ => go (src.hostID :: known)

def planNext (policy : RunControl) (rest : List JobSource) (known : List String)
    (plans : List VmPlan) : Except Err VmPlan → ExecM (Except Err (List VmPlan))
  | .error err => .ret (.error err)
  | .ok p => planLoop lower policy rest known (plans ++ [p])

def planVMJob (j : BackupJob) : ExecM (Except Err (List VmPlan)) :=
  let start (sources : List JobSource) : ExecM (Except Err (List VmPlan)) :=
    if sources = [] then .ret (.error (.plan .noSources))
    else planLoop lower j.policy sources [] []
  if j.tagFilter ≠ "" then
    resolveTagFilter lower j.tagFilter >>= fun
    | .error err => .ret (.error err)
    | .ok sources => start sources
  else start j.sources

end

end ProxBack.Sched.Execute
