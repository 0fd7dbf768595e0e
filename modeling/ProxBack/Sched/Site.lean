import ProxBack.Lib.System
import ProxBack.Sched.Backup
import Mathlib.Data.Finset.Insert

/-! Backup runs, removals and collecting passes at work at the same time. Each goes
through its program call by call; a run's chunks are stored by workers of its own, and a
pass starts where a run or a removal finds its target idle. -/
namespace ProxBack.Sched
open Lib Prog Engine Store

/-- The hash an answer vouches for: the index has it, the target has it, or it has just
been uploaded. -/
def accepts : (c : Engine.Call) → Engine.Reply c → Option Sha
  | .hasChunk sha, .ok true => some sha
  | .head sha, .ok (some _) => some sha
  | .put sha _, .ok () => some sha
  | _, _ => none

structure Worker where
  sha : Sha
  prog : EngineM Bool

/-- `Session.BackupStream` and `StoreChunkVerified`, for one chunk. -/
def Worker.putChunk (e : Engine) (data : Bytes) : Worker where
  sha := e.hash data
  prog := e.putChunk (e.hash data) data >>= fun r => .ret r.isOk

def Worker.hasChunk (sha : Sha) : Worker where
  sha := sha
  prog := Engine.hasChunk sha >>= fun r => .ret (r matches .ok true)

/-- An attempt at a backup job between `markTargetActive` and `markTargetIdle`. Its
manifests may name what is `stored`; `accepted` is what its workers have been told is on
the target. -/
structure Run where
  engine : Engine
  targetID : String
  accepted : Finset Sha
  stored : Finset Sha
  workers : List Worker
  body : SchedM (Option Err)

structure Removal where
  engine : Engine
  body : SchedM (Except Err String)

/-- A pass, and what runs on its target have accepted since the target was found idle. -/
structure Pass where
  targetID : String
  since : Finset Sha
  prog : EngineM (GCResult × Option Engine.Err)

structure Site where
  world : World
  runs : List Run
  removals : List Removal
  passes : List Pass

inductive Work where
  | failed (err : Err)
  | vms (sources : List { source : String × String // source.1 ≠ "" })
  | agent (source : { source : String × String // source.1 ≠ "" })

def Work.plan (source : { source : String × String // source.1 ≠ "" }) : Plan :=
  Plan.byWorkers source.1.1 source.1.2 source.2

def Work.planned : Work → Planned
  | .failed err => .failed err
  | .vms sources => .vms (sources.map Work.plan)
  | .agent source => .agent (Work.plan source)

inductive Action where
  | start (e : Engine) (job : Job) (runID : String) (work : Work)
  | putChunk (i : Nat) (data : Bytes)
  | hasChunk (i : Nat) (sha : Sha)
  | work (i j : Nat) (x : Engine.Choice)
  | stored (i j : Nat)
  | run (i : Nat) (x : Choice)
  | finish (i : Nat) (x : Choice)
  | remove (e : Engine) (backupID : String)
  | removal (i : Nat) (x : Choice)
  | removed (i : Nat)
  | collect (i : Nat) (x : Engine.Choice)

/-- The wait for the workers ends with chunk lists made of stored chunks, or fails. -/
def Run.allows (r : Run) (x : Choice) : Call → Bool
  | .exported => match x.disks with
    | .ok out => out.1.all fun d => d.chunks.all fun ch => ch.sha256 ∈ r.stored
    | .error _ => true
  | _ => true

def Pass.note (targetID : String) (sha : Option Sha) (p : Pass) : Pass :=
  match sha with
  | some sha => if p.targetID = targetID then { p with since := insert sha p.since } else p
  | none => p

@[simp] theorem Pass.note_targetID (targetID : String) (sha : Option Sha) (p : Pass) :
    (p.note targetID sha).targetID = p.targetID := by
  unfold note
  split
  · split <;> rfl
  · rfl

@[simp] theorem Pass.note_prog (targetID : String) (sha : Option Sha) (p : Pass) :
    (p.note targetID sha).prog = p.prog := by
  unfold note
  split
  · split <;> rfl
  · rfl

theorem Pass.subset_note (targetID : String) (sha : Option Sha) (p : Pass) :
    p.since ⊆ (p.note targetID sha).since := by
  unfold note
  split
  · split
    · exact Finset.subset_insert _ _
    · exact fun _ => id
  · exact fun _ => id

theorem Pass.mem_note (sha : Sha) (p : Pass) : sha ∈ (p.note p.targetID (some sha)).since := by
  unfold note
  dsimp only
  rw [if_pos rfl]
  exact Finset.mem_insert_self _ _

def Run.accept (r : Run) : Option Sha → Run
  | some sha => { r with accepted := insert sha r.accepted }
  | none => r

@[simp] theorem Run.accept_targetID (r : Run) (sha : Option Sha) :
    (r.accept sha).targetID = r.targetID := by
  cases sha <;> rfl

@[simp] theorem Run.accept_workers (r : Run) (sha : Option Sha) :
    (r.accept sha).workers = r.workers := by
  cases sha <;> rfl

@[simp] theorem Run.mem_accept {r : Run} {told : Option Sha} {sha : Sha} :
    sha ∈ (r.accept told).accepted ↔ told = some sha ∨ sha ∈ r.accepted := by
  cases told with
  | none => simp [accept]
  | some a =>
    rw [accept, Finset.mem_insert, Option.some_inj]
    exact or_congr_left eq_comm

def Pass.begin (e : Engine) (targetID : String) : Pass := ⟨targetID, ∅, e.gc⟩

namespace Site

def start (e : Engine) (job : Job) (runID : String) (work : Work) (s : Site) : Site :=
  { s with
    world := (World.exec (.markTargetActive job.targetID) .fine s.world).2
    runs := s.runs ++ [⟨e, job.targetID, ∅, ∅, [], backupJob job runID work.planned⟩] }

def addWorker (i : Nat) (f : Run → Worker) (s : Site) : Option Site :=
  match s.runs[i]? with
  | some r => some { s with runs := s.runs.set i { r with workers := f r :: r.workers } }
  | none => none

def work (i j : Nat) (x : Engine.Choice) (s : Site) : Option Site :=
  match s.runs[i]? with
  | none => none
  | some r =>
    match r.workers[j]? with
    | some ⟨sha, .call c k⟩ =>
      let out := Target.exec c x (s.world.targets r.targetID)
      let told := accepts c out.1
      some { s with
        world := s.world.setTarget r.targetID out.2
        runs := s.runs.set i { r.accept told with workers := r.workers.set j ⟨sha, k out.1⟩ }
        passes := s.passes.map (Pass.note r.targetID told) }
    | _ => none

def stored (i j : Nat) (s : Site) : Option Site :=
  match s.runs[i]? with
  | none => none
  | some r =>
    match r.workers[j]? with
    | some ⟨sha, .ret ok⟩ =>
      some { s with runs := s.runs.set i { r with
        workers := r.workers.eraseIdx j
        stored := if ok then insert sha r.stored else r.stored } }
    | _ => none

def run (i : Nat) (x : Choice) (s : Site) : Option Site :=
  match s.runs[i]? with
  | none => none
  | some r =>
    match r.body with
    | .call c k =>
      if r.allows x c then
        some { s with
          world := (World.exec c x s.world).2
          runs := s.runs.set i { r with body := k (World.exec c x s.world).1 } }
      else none
    | .ret _ => none

def finish (i : Nat) (x : Choice) (s : Site) : Option Site :=
  match s.runs[i]? with
  | none => none
  | some r =>
    match r.body with
    | .ret runErr =>
      let idle := World.exec (.markTargetIdle r.targetID) x s.world
      some { s with
        world := idle.2
        runs := s.runs.eraseIdx i
        passes := if ¬ idle.1 ∨ runErr ≠ none ∨ x.fault ≠ none then s.passes
          else s.passes ++ [Pass.begin r.engine r.targetID] }
    | .call _ _ => none

def removal (i : Nat) (x : Choice) (s : Site) : Option Site :=
  match s.removals[i]? with
  | none => none
  | some r =>
    match r.body with
    | .call c k =>
      some { s with
        world := (World.exec c x s.world).2
        removals := s.removals.set i { r with body := k (World.exec c x s.world).1 } }
    | .ret _ => none

def removed (i : Nat) (s : Site) : Option Site :=
  match s.removals[i]? with
  | none => none
  | some r =>
    match r.body with
    | .ret (.ok targetID) =>
      some { s with
        removals := s.removals.eraseIdx i
        passes := if (World.exec (.targetIdle targetID) .fine s.world).1
          then s.passes ++ [Pass.begin r.engine targetID] else s.passes }
    | .ret (.error _) => some { s with removals := s.removals.eraseIdx i }
    | .call _ _ => none

def collect (i : Nat) (x : Engine.Choice) (s : Site) : Option Site :=
  match s.passes[i]? with
  | none => none
  | some p =>
    match p.prog with
    | .call c k =>
      let out := Target.exec c x (s.world.targets p.targetID)
      some { s with
        world := s.world.setTarget p.targetID out.2
        passes := s.passes.set i { p with prog := k out.1 } }
    | .ret _ => none

def step : Action → Site → Option Site
  | .start e job runID work, s => some (s.start e job runID work)
  | .putChunk i data, s => s.addWorker i fun r => .putChunk r.engine data
  | .hasChunk i sha, s => s.addWorker i fun _ => .hasChunk sha
  | .work i j x, s => s.work i j x
  | .stored i j, s => s.stored i j
  | .run i x, s => s.run i x
  | .finish i x, s => s.finish i x
  | .remove e backupID, s => some { s with removals := ⟨e, removeBackup backupID⟩ :: s.removals }
  | .removal i x, s => s.removal i x
  | .removed i, s => s.removed i
  | .collect i x, s => s.collect i x

end Site

def site : System Site Action := ⟨Site.step⟩

end ProxBack.Sched
