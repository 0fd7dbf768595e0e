import ProxBack.Engine.Serial
import ProxBack.Sched.SiteSafe

/-! The configured targets, each with the place its objects lie at. Two of them may name the
same place: its objects are then shared, and only the chunk index is each target's own. -/
namespace ProxBack.Sched
open Lib Prog Engine Store

inductive Location where
  | s3 (endpoint bucket : String)
  | filesystem (path : String)
deriving DecidableEq, Repr

namespace Location

/-- `filepath.Join(base, "chunks")`. -/
def chunkDir (base : String) : String := if base = "/" then "/chunks" else base ++ "/chunks"

/-- The second place lies at or below the directory that the first has its chunks in. `Walk`
goes through all that is below that directory, and takes each file there for a chunk. -/
def Encloses : Location → Location → Prop
  | .filesystem base, .filesystem base' => (chunkDir base ++ "/").toList <+: (base' ++ "/").toList
  | _, _ => False

instance : (l l' : Location) → Decidable (l.Encloses l')
  | .filesystem _, .filesystem _ => inferInstanceAs (Decidable (_ <+: _))
  | .filesystem _, .s3 _ _ => isFalse id
  | .s3 _ _, .filesystem _ => isFalse id
  | .s3 _ _, .s3 _ _ => isFalse id

end Location

structure TargetRow where
  id : String
  location : Location
deriving DecidableEq, Repr

structure Targets where
  rows : List TargetRow
  distinct : (rows.map TargetRow.id).Nodup

namespace Targets

def empty : Targets := ⟨[], List.nodup_nil⟩

/-- `handleCreateTarget`. What it checks is the request and its path, never the other targets;
the id is a new one. -/
def createTarget (targets : Targets) (id : String) (location : Location) : Option Targets :=
  if h : id ∈ targets.rows.map TargetRow.id then none
  else
    some ⟨⟨id, location⟩ :: targets.rows, by
      rw [List.map_cons]
      exact List.nodup_cons.mpr ⟨h, targets.distinct⟩⟩

def locate (targets : Targets) (targetID : String) : Option Location :=
  (targets.rows.find? fun r => r.id = targetID).map TargetRow.location

end Targets

/-- Targets of which none is inside another one's chunks, so that different places share no
object. Nothing that creates a target sees to it. -/
structure Layout extends Targets where
  apart : ∀ r ∈ rows, ∀ r' ∈ rows, ¬ r.location.Encloses r'.location

structure Objects where
  chunks : FinMap Sha ChunkObject
  manifests : FinMap ManifestKey (Option Manifest)

/-- All there is: the objects by their place, the chunk index by the target's id, and the
scheduler's tables and counters. -/
structure Storage where
  objects : Location → Objects
  index : String → FinMap Sha IndexRow
  backups : BackupTable
  jobs : FinMap String Job
  targetActive : String → Int

structure SourceData where
  sourceID : String
  name : String
  streams : List (String × List Bytes)
  sourceID_ne : sourceID ≠ ""

/-- The chunks of an agent's stream. It asks for each of them, and sends those that the
target does not have. -/
def storeOffered (e : Engine) (name : String) :
    List Bytes → List Chunk → Stats → EngineM (Except Engine.Err DiskManifest × Stats)
  | [], chunks, st => .ret (streamResult name none none chunks, st)
  | d :: rest, chunks, st =>
    Engine.hasChunk (e.hash d) >>= fun
    | .error err => .ret (.error err, st)
    | .ok true =>
      storeOffered e name rest (chunks ++ [⟨e.hash d, d.length⟩]) (st.record d.length 0)
    | .ok false =>
      e.putChunk (e.hash d) d >>= fun
      | .error err => .ret (.error err, st)
      | .ok uploaded =>
        storeOffered e name rest (chunks ++ [⟨e.hash d, d.length⟩]) (st.record d.length uploaded)

/-- `BackupStream` for a machine's disk, or what an agent sends. -/
def storeStream (e : Engine) : SourceKind → String → List Bytes →
    EngineM (Except Engine.Err DiskManifest × Stats)
  | .vm, name, units => e.storeSerial name units [] .zero
  | .agent, name, units => storeOffered e name units [] .zero

def storeStreams (e : Engine) (kind : SourceKind) (targetID : String) :
    List (String × List Bytes) → List DiskManifest → Nat → SchedM (Except Engine.Err Exported)
  | [], out, uploaded => .ret (.ok (out, uploaded))
  | (name, units) :: rest, out, uploaded =>
    onTarget targetID (storeStream e kind name units) >>= fun
    | (.error err, _) => .ret (.error err)
    | (.ok dm, st) =>
      storeStreams e kind targetID rest (out ++ [dm]) (uploaded + st.bytesUploaded)

theorem putChunk_stores (e : Engine) (d : Bytes) : Calls Stores (e.putChunk (e.hash d) d) :=
  putChunk_calls e _ d (fun c hc => by cases c <;> first | exact hc.elim | trivial) trivial trivial

theorem storeStream_stores (e : Engine) (kind : SourceKind) (name : String) (units : List Bytes) :
    Calls Stores (storeStream e kind name units) := by
  cases kind with
  | vm =>
    have hserial : ∀ chunks st, Calls Stores (e.storeSerial name units chunks st) := by
      induction units with
      | nil => exact fun _ _ => trivial
      | cons d rest ih =>
        intro chunks st
        refine (putChunk_stores e d).bind ?_
        rintro (err | uploaded)
        · trivial
        · exact ih _ _
    exact hserial _ _
  | agent =>
    have hoffered : ∀ chunks st, Calls Stores (storeOffered e name units chunks st) := by
      induction units with
      | nil => exact fun _ _ => trivial
      | cons d rest ih =>
        intro chunks st
        refine (hasChunk_calls _ (fun c hc => by cases c <;> first | exact hc.elim | trivial)
          fun _ => trivial).bind ?_
        rintro (err | - | -)
        · trivial
        · refine (putChunk_stores e d).bind ?_
          rintro (err | uploaded)
          · trivial
          · exact ih _ _
        · exact ih _ _
    exact hoffered _ _

theorem storeStreams_streams (e : Engine) (kind : SourceKind) (targetID : String)
    (streams : List (String × List Bytes)) (out : List DiskManifest) (uploaded : Nat) :
    Calls Call.Streams (storeStreams e kind targetID streams out uploaded) := by
  induction streams generalizing out uploaded with
  | nil => trivial
  | cons stream rest ih =>
    refine (onTarget_calls ((storeStream_stores e kind stream.1 stream.2).mono ?_)).bind ?_
    · intro c hc
      cases c <;> first | exact hc.elim | trivial
    · rintro ⟨err | dm, st⟩
      · trivial
      · exact ih _ _

def SourceData.plan (src : SourceData) (e : Engine) (kind : SourceKind) (targetID : String) : Plan where
  sourceID := src.sourceID
  name := src.name
  exported := storeStreams e kind targetID src.streams [] 0
  sourceID_ne := src.sourceID_ne
  streams := storeStreams_streams ..

inductive Sources where
  | vms (sources : List SourceData)
  | agent (source : SourceData)

def Sources.planned (e : Engine) (targetID : String) : Sources → Planned
  | .vms sources => .vms (sources.map fun src => src.plan e .vm targetID)
  | .agent source => .agent (source.plan e .agent targetID)

namespace Storage

section
variable (targets : Layout)

def target (s : Storage) (targetID : String) : Target :=
  match targets.locate targetID with
  | some loc => ⟨(s.objects loc).chunks, (s.objects loc).manifests, s.index targetID⟩
  | none => ⟨∅, ∅, s.index targetID⟩

def setTarget (s : Storage) (targetID : String) (t : Target) : Storage :=
  match targets.locate targetID with
  | some loc =>
    { s with
      objects := Function.update s.objects loc ⟨t.chunks, t.manifests⟩
      index := Function.update s.index targetID t.index }
  | none => s

def world (s : Storage) : World := ⟨s.target targets, s.backups, s.jobs, s.targetActive⟩

def exec : (c : Call) → Choice → Storage → Reply c × Storage
  | .engine targetID c, x, s =>
    let out := Target.exec c x.toChoice (s.target targets targetID)
    (out.1, s.setTarget targets targetID out.2)
  | c, x, s =>
    let out := World.exec c x (s.world targets)
    (out.1, { s with
      backups := out.2.backups
      jobs := out.2.jobs
      targetActive := out.2.targetActive })

def calm : Prog.Machine Call Reply Storage where
  Choice := { x : Choice // x.fault = none }
  exec c x s := exec targets c x.1 s

def Backup (targetID : String) (s s' : Storage) : Prop :=
  ∃ e job runID sources es res, job.targetID = targetID ∧
    Steps (calm targets) (backupAttempt e job runID (Sources.planned e targetID sources)) s es
      (.ret res) s'

/-- An operation on a target: a backup run, the pruning of a source, the removal of one of the
target's restore points, or a collecting pass. -/
inductive Operation (targetID : String) (s s' : Storage) : Prop where
  | backup (h : s.Backup targets targetID s')
  | prune (policy : RetentionPolicy) (kind : SourceKind) (sourceID : String)
      (es : List (calm targets).Event) (res : Option Err)
      (h : Steps (calm targets) (applyRetention targetID policy kind sourceID) s es (.ret res) s')
  | remove (e : Engine) (backupID : String)
      (hrow : ∀ b ∈ s.backups.rows, b.id = backupID → b.targetID = targetID)
      (es : List (calm targets).Event) (res : Option Err)
      (h : Steps (calm targets) (deleteBackup e backupID) s es (.ret res) s')
  | collect (e : Engine) (es : List (calm targets).Event) (res : GCResult × Option Engine.Err)
      (h : Steps (calm targets) (onTarget targetID e.gc) s es (.ret res) s')

end

end Storage

end ProxBack.Sched
