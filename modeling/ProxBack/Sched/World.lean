import ProxBack.Engine.Gc
import ProxBack.Store.Backups

/-! What the scheduler works on: the targets, the database, and the count of the runs
that are active on each target, with the calls it makes on them. -/
namespace ProxBack.Sched
open Lib Engine Store

structure Job where
  id : String
  name : String
  kind : SourceKind
  targetID : String
  retention : RetentionPolicy

structure World where
  targets : String → Target
  backups : BackupTable
  jobs : FinMap String Job
  targetActive : String → Int

inductive Phase where
  | pre
  | post
deriving DecidableEq, Repr

inductive Err where
  | engine (err : Engine.Err)
  | store (err : Store.Err)
  | loadTarget (err : Store.Err)
  | script (phase : Phase) (f : Fault)
  | ctx (f : Fault)
deriving DecidableEq

/-- What a source's streams left on the target: the disks' chunk lists, and the bytes
that were uploaded for them. -/
abbrev Exported := List DiskManifest × Nat

/-- The calls of the scheduler: the engine's on some target, those on the tables, and
those on its own counters. `openTarget` reads a target's settings and opens its
storage, `script` runs a script in the guest, and `exported` waits for the workers that
store a source's chunks. -/
inductive Call where
  | engine (targetID : String) (c : Engine.Call)
  | jobByID (id : String)
  | listBackups (f : BackupFilter)
  | backupByID (id : String)
  | latestBackupForSource (kind : SourceKind) (sourceID targetID : String)
  | createBackup (b : Backup)
  | clearBackupParent (id : String)
  | deleteBackup (id : String)
  | openTarget (targetID : String)
  | script (phase : Phase)
  | exported
  | ctxErr
  | newID
  | now
  | markTargetActive (targetID : String)
  | markTargetIdle (targetID : String)
  | targetIdle (targetID : String)

abbrev Reply : Call → Type
  | .engine _ c => Engine.Reply c
  | .jobByID _ => Except Store.Err Job
  | .listBackups _ => Except Store.Err (List Backup)
  | .backupByID _ => Except Store.Err Backup
  | .latestBackupForSource _ _ _ => Except Store.Err Backup
  | .createBackup _ => Except Store.Err Unit
  | .clearBackupParent _ => Except Store.Err Unit
  | .deleteBackup _ => Except Store.Err Unit
  | .openTarget _ => Except Store.Err Unit
  | .script _ => Except Fault Unit
  | .exported => Except Engine.Err Exported
  | .ctxErr => Option Fault
  | .newID => String
  | .now => Time
  | .markTargetActive _ => Unit
  | .markTargetIdle _ => Bool
  | .targetIdle _ => Bool

structure Choice extends Engine.Choice where
  freshID : String := ""
  disks : Except Engine.Err Exported := .ok ([], 0)

def Choice.fine : Choice := {}

def Choice.reply {α : Type} (x : Choice) (op : String) (value : Except Store.Err α) :
    Except Store.Err α :=
  match x.fault with
  | none => value
  | some f => .error (.failed op f)

/-- The world after a call that writes `w'` over `w`. -/
def Choice.outcome (x : Choice) (w w' : World) : World :=
  if x.fault = none ∨ x.applied then w' else w

def World.setTarget (w : World) (targetID : String) (t : Target) : World :=
  { w with targets := Function.update w.targets targetID t }

def World.setBackups (w : World) (t : BackupTable) : World := { w with backups := t }

def World.setActive (w : World) (targetID : String) (n : Int) : World :=
  { w with targetActive := Function.update w.targetActive targetID n }

theorem Choice.outcome_of {P : World → Prop} (x : Choice) {w w' : World} (h : P w)
    (h' : P w') : P (x.outcome w w') := by
  unfold Choice.outcome
  split
  · exact h'
  · exact h

@[grind =] theorem World.targets_setTarget (w : World) (targetID : String) (t : Target) (a : String) :
    (w.setTarget targetID t).targets a = if a = targetID then t else w.targets a :=
  Function.update_apply ..

namespace World

def exec : (c : Call) → Choice → World → Reply c × World
  | .engine targetID c, x, w =>
      ((Target.exec c x.toChoice (w.targets targetID)).1,
        w.setTarget targetID (Target.exec c x.toChoice (w.targets targetID)).2)
  | .jobByID id, x, w =>
      (x.reply "job" (match w.jobs.lookup id with
        | some job => .ok job
        | none => .error .notFound), w)
  | .listBackups f, x, w => (x.reply "list backups" (.ok (w.backups.listBackups f)), w)
  | .backupByID id, x, w => (x.reply "backup" (w.backups.backupByID id), w)
  | .latestBackupForSource kind sourceID targetID, x, w =>
      (x.reply "backup" (w.backups.latestBackupForSource kind sourceID targetID), w)
  | .createBackup b, x, w =>
      let b := if b.createdAt = 0 then { b with createdAt := x.clock } else b
      match w.backups.createBackup b with
      | some t => (x.reply "create backup" (.ok ()), x.outcome w (w.setBackups t))
      | none => (.error (.failed "create backup" (x.fault.getD (.other 0))), w)
  | .clearBackupParent id, x, w =>
      (x.reply "clear backup parent" (.ok ()),
        x.outcome w (w.setBackups (w.backups.clearBackupParent id)))
  | .deleteBackup id, x, w =>
      (x.reply "delete backup"
          (if id ∈ w.backups.rows.map Backup.id then .ok () else .error .notFound),
        x.outcome w (w.setBackups (w.backups.deleteBackup id)))
  | .openTarget _, x, w => (x.reply "backup target" (.ok ()), w)
  | .script _, x, w =>
      (match x.fault with
        | none => .ok ()
        | some f => .error f, w)
  | .exported, x, w => (x.disks, w)
  | .ctxErr, x, w => (x.fault, w)
  | .newID, x, w => (x.freshID, w)
  | .now, x, w => (x.clock, w)
  | .markTargetActive targetID, _, w =>
      ((), w.setActive targetID (w.targetActive targetID + 1))
  | .markTargetIdle targetID, _, w =>
      let n := w.targetActive targetID - 1
      (decide (n ≤ 0), w.setActive targetID (if n ≤ 0 then 0 else n))
  | .targetIdle targetID, _, w => (decide (w.targetActive targetID = 0), w)

def machine : Prog.Machine Call Reply World where
  Choice := Choice
  exec := exec

def alone (c : Call) (w : World) : Reply c × World := exec c .fine w

end World

abbrev SchedM (α : Type) := Prog Call Reply α

def onTarget {α : Type} (targetID : String) (p : EngineM α) : SchedM α :=
  p.lift (.engine targetID) fun _ r => r

@[simp] theorem onTarget_ret {α : Type} (targetID : String) (a : α) :
    onTarget targetID (.ret a) = .ret a := rfl

@[simp] theorem onTarget_call {α : Type} (targetID : String) (c : Engine.Call)
    (k : Engine.Reply c → EngineM α) :
    onTarget targetID (.call c k) = .call (.engine targetID c) fun r => onTarget targetID (k r) := rfl

end ProxBack.Sched
