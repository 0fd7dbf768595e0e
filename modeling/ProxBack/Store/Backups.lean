import ProxBack.Store.Retention
import ProxBack.Engine.Target

/-! The backups table: one row for each restore point, with its id as primary key. -/
namespace ProxBack.Store
open Engine (Time SourceKind BackupKind ManifestKey Fault)

structure Disk where
  name : String
  sizeBytes : Int
deriving DecidableEq, Repr

/-- A row. A source always has an id: a VM's is made of its host and number, and an
agent's is the agent's own. -/
structure Backup where
  id : String
  jobID : String
  runID : String
  sourceKind : SourceKind
  sourceID : String
  sourceName : String
  targetID : String
  createdAt : Time
  sizeBytes : Int
  uploadedBytes : Nat
  kind : BackupKind
  parentID : String
  disks : List Disk
  sourceID_ne : sourceID ≠ ""

def Backup.key (b : Backup) : ManifestKey := ⟨b.sourceKind, b.sourceID, b.id⟩

def Backup.point (b : Backup) : RetentionPoint := ⟨b.id, b.createdAt⟩

inductive Err where
  | notFound
  | failed (op : String) (f : Fault)
deriving DecidableEq, Repr

structure BackupTable where
  rows : List Backup
  nodup : (rows.map Backup.id).Nodup

structure BackupFilter where
  sourceKind : Option SourceKind := none
  sourceID : String := ""
  targetID : String := ""
  jobID : String := ""

def BackupFilter.matches (f : BackupFilter) (b : Backup) : Bool :=
  (f.sourceKind = none ∨ f.sourceKind = some b.sourceKind) ∧
    (f.sourceID = "" ∨ f.sourceID = b.sourceID) ∧
    (f.targetID = "" ∨ f.targetID = b.targetID) ∧ (f.jobID = "" ∨ f.jobID = b.jobID)

namespace BackupTable

def empty : BackupTable := ⟨[], List.nodup_nil⟩

/-- `ORDER BY created_at DESC, id DESC`. -/
def newestFirst (rows : List Backup) : List Backup :=
  rows.insertionSort fun a b => ¬ newer b.point a.point

def listBackups (t : BackupTable) (f : BackupFilter) : List Backup :=
  newestFirst (t.rows.filter f.matches)

def backupByID (t : BackupTable) (id : String) : Except Err Backup :=
  match t.rows.find? (·.id = id) with
  | some b => .ok b
  | none => .error .notFound

def latestBackupForSource (t : BackupTable) (kind : SourceKind) (sourceID targetID : String) :
    Except Err Backup :=
  match newestFirst (t.rows.filter fun b =>
      b.sourceKind = kind ∧ b.sourceID = sourceID ∧ b.targetID = targetID) with
  | b :: _ => .ok b
  | [] => .error .notFound

def createBackup (t : BackupTable) (b : Backup) : Option BackupTable :=
  if h : b.id ∈ t.rows.map Backup.id then none
  else some ⟨b :: t.rows, List.nodup_cons.mpr ⟨h, t.nodup⟩⟩

def deleteBackup (t : BackupTable) (id : String) : BackupTable :=
  ⟨t.rows.filter (·.id ≠ id), t.nodup.sublist (List.filter_sublist.map _)⟩

/-- The row without its parent, if that is `id`. -/
def detach (id : String) (b : Backup) : Backup :=
  if b.parentID = id then { b with parentID := "" } else b

@[simp] theorem detach_id (id : String) (b : Backup) : (detach id b).id = b.id := by
  unfold detach
  split <;> rfl

def clearBackupParent (t : BackupTable) (id : String) : BackupTable where
  rows := t.rows.map (detach id)
  nodup := by
    have hids : (t.rows.map (detach id)).map Backup.id = t.rows.map Backup.id := by
      rw [List.map_map]
      exact List.map_congr_left fun b _ => detach_id id b
    rw [hids]
    exact t.nodup

end BackupTable

end ProxBack.Store
