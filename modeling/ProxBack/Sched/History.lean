import ProxBack.Api.Posture
import ProxBack.Sched.ExecuteRuns
import ProxBack.Store.Runs

/-! The history of backup runs as the tables keep it: the rows of the runs, and the
breakdown of each run into its sources. Runs of any jobs interleave; a statement may fail,
a run may be cancelled or panic, and the server may be restarted at any point. The clock
moves on with every statement. -/
namespace ProxBack.Sched.Execute.History
open Lib Prog Engine
open Store (RunStatus)
open Api (SourceOutcome)

structure RunRow where
  id : String
  jobID : String
  status : RunStatus
  finishedAt : Option Time
deriving DecidableEq

/-- A row of `run_sources`. -/
structure SourceRow where
  runID : String
  source : PlannedSource
  status : SourceStatus
  finishedAt : Option Time
deriving DecidableEq

structure Body where
  runID : String
  prog : ExecM (Option Err)

/-- `begun` are all runs there ever were, the latest first, and `recorded` the restore points
that runs have made. Both are a history that no operation reads. -/
structure State where
  now : Time
  runs : List RunRow
  sources : List SourceRow
  bodies : List Body
  begun : List String
  recorded : List (String × Workload)

/-- `took` is whether the statements of a call took effect, and `ended` whether a deferred
`mon.finish` wrote its row on the way out of a panic. -/
inductive Action where
  | start (runID : String) (j : BackupJob)
  | answer (i : Nat) (reply : ∀ c, Reply c) (took : Bool)
  | finish (i : Nat) (took : Bool)
  | panic (i : Nat) (ended took : Bool)
  | cancelQueued (i : Nat) (took : Bool)
  | deleteRun (runID : String)
  | restart

/-- The status that `finish` gives a run. -/
def runStatus : Option Err → RunStatus
  | none => .success
  | some err => if err.canceled then .canceled else .failed

def pointOf : Call → Option Workload
  | .guest (.sched (.createBackup b)) => some (b.sourceKind, b.sourceID)
  | _ => none

def succeeded : (c : Call) → Reply c → Bool
  | .guest (.sched (.createBackup _)), .ok () => true
  | _, _ => false

namespace SourceRow

def pending (runID : String) (source : PlannedSource) : SourceRow := ⟨runID, source, .pending, none⟩

/-- `UPDATE run_sources SET … WHERE run_id = ? AND seq = ?` -/
def update (x : SourceRow) (runID : String) (seq : Nat) (status : SourceStatus)
    (finishedAt : Option Time) : SourceRow :=
  if x.runID = runID ∧ x.source.seq = seq then { x with status, finishedAt } else x

def isOpen (x : SourceRow) : Bool := x.status = .pending ∨ x.status = .running

def skip (x : SourceRow) (now : Time) : SourceRow :=
  if x.isOpen then { x with status := .skipped, finishedAt := some now } else x

-- Only an agent job defers the end of its row. Its error is still nil when the body panics, and
-- the row is written as a success.
def unwind (x : SourceRow) (runID : String) (now : Time) : SourceRow :=
  if x.runID = runID ∧ x.source.kind = .agent ∧ x.isOpen = true then
    { x with status := .success, finishedAt := some now }
  else x

end SourceRow

namespace State

def initial : State := ⟨0, [], [], [], [], []⟩

/-- `ReplaceRunSources`. -/
def replaceRunSources (s : State) (runID : String) (rows : List PlannedSource) : List SourceRow :=
  (s.sources.filter fun x => x.runID ≠ runID) ++ rows.map (SourceRow.pending runID)

def sourcesAfter (s : State) (runID : String) : Call → List SourceRow
  | .planSources rows => s.replaceRunSources runID rows
  | .beginSource seq => s.sources.map fun x => x.update runID seq .running x.finishedAt
  | .finishSource seq status => s.sources.map fun x => x.update runID seq status (some s.now)
  | _ => s.sources

def recordedAfter (s : State) (runID : String) (c : Call) (r : Reply c) (took : Bool) :
    List (String × Workload) :=
  match pointOf c with
  | none => s.recorded
  | some w => if succeeded c r ∨ took then (runID, w) :: s.recorded else s.recorded

/-- `SkipPendingRunSources`. -/
def closeOut (s : State) (runID : String) : List SourceRow :=
  s.sources.map fun x => if x.runID = runID then x.skip s.now else x

/-- `finish`: what the run never got to is skipped, and its row is written, if it can be. -/
def finish (s : State) (i : Nat) (runID : String) (status : RunStatus) (took : Bool) : State :=
  { s with
    now := s.now + 1
    bodies := s.bodies.eraseIdx i
    sources := s.closeOut runID
    runs := if took then
        s.runs.map fun r => if r.id = runID then { r with status, finishedAt := some s.now } else r
      else s.runs }

def unwind (s : State) (runID : String) : State :=
  { s with
    now := s.now + 1
    sources := s.sources.map fun x => x.unwind runID s.now }

def restart (s : State) : State :=
  { s with
    now := s.now + 1
    bodies := []
    sources := s.sources.map fun x => x.skip s.now
    runs := s.runs.map fun r =>
      if r.status = .running then { r with status := .failed, finishedAt := some s.now } else r }

section
variable (lower : Char → Char) (e : Engine)

def step (a : Action) (s : State) : Option State :=
  match a with
  | .start runID j =>
    if runID ∈ s.begun then none
    else
      some { s with
        now := s.now + 1
        runs := ⟨runID, j.job.id, .running, none⟩ :: s.runs
        bodies := s.bodies ++ [⟨runID, executeBackup lower e j runID⟩]
        begun := runID :: s.begun }
  | .answer i reply took =>
    match s.bodies[i]? with
    | some ⟨runID, .call c k⟩ =>
      some { s with
        now := s.now + 1
        bodies := s.bodies.set i ⟨runID, k (reply c)⟩
        sources := if took then s.sourcesAfter runID c else s.sources
        recorded := s.recordedAfter runID c (reply c) took }
    | _ => none
  | .finish i took =>
    match s.bodies[i]? with
    | some ⟨runID, .ret res⟩ => some (s.finish i runID (runStatus res) took)
    | _ => none
  | .panic i ended took =>
    match s.bodies[i]? with
    | some b => some ((if ended then s.unwind b.runID else s).finish i b.runID .failed took)
    | none => none
  | .cancelQueued i took =>
    match s.bodies[i]? with
    | some b => some (s.finish i b.runID .canceled took)
    | none => none
  | .deleteRun runID =>
    -- a run in progress is not deleted
    if s.runs.any fun r => r.id = runID ∧ r.status = .running then none
    else
      some { s with
        runs := s.runs.filter fun r => r.id ≠ runID
        sources := s.sources.filter fun x => x.runID ≠ runID }
  | .restart => some s.restart

end

def outcomeRows (s : State) (sourceID : String) : List SourceRow :=
  s.sources.filter fun x =>
    x.source.sourceID = sourceID ∧ (x.status = .success ∨ x.status = .failed)

/-- `LatestSourceOutcomes`: the rows are read in the order of their ends, and the last one of a
workload stays. -/
def latestSourceOutcomes (s : State) (sourceID : String) : Option SourceOutcome :=
  if sourceID = "" then none
  else
    (((s.outcomeRows sourceID).insertionSort fun x y =>
      x.finishedAt.getD 0 ≤ y.finishedAt.getD 0).getLast?).map fun x =>
        ⟨x.status, x.finishedAt.getD 0⟩

end State

def system (lower : Char → Char) (e : Engine) : System State Action := ⟨State.step lower e⟩

end ProxBack.Sched.Execute.History
