import ProxBack.Engine.Session
import ProxBack.Lib.FinMap

/-! The table of runs. Every statement that writes it is an unconditional `UPDATE` of the
row with a given id, which touches nothing when there is no such row. Percentages and
ratios are exact here where the source rounds them to `float64`. -/
namespace ProxBack.Store
open Lib
open Engine (Time Snapshot)

inductive RunStatus where
  | running
  | success
  | failed
  | canceled
deriving DecidableEq, Repr

inductive RunKind where
  | backup
  | restore
  | verify
deriving DecidableEq, Repr

structure JobRun where
  kind : RunKind
  status : RunStatus
  finishedAt : Option Time
  bytesProcessed : Nat
  bytesUploaded : Nat
  dedupRatio : ℚ
  error : String
  progressPct : ℚ
  currentStep : String
deriving DecidableEq

def reductionPct (processed uploaded : Nat) : ℚ :=
  if processed = 0 then 0
  else
    let pct : ℚ := (1 - uploaded / processed) * 100
    if pct < 0 then 0 else if pct > 100 then 100 else pct

/-- The values `FinishRun` is called with. -/
structure Verdict where
  status : RunStatus
  processed : Nat
  uploaded : Nat
  dedupRatio : ℚ
  error : String
deriving DecidableEq

abbrev RunTable := FinMap String JobRun

namespace RunTable

/-- `UPDATE job_runs SET … WHERE id = ?` -/
def update (rows : RunTable) (runID : String) (f : JobRun → JobRun) : RunTable :=
  match rows.lookup runID with
  | none => rows
  | some row => rows.insert runID (f row)

/-- `CreateRun`, as the callers that launch a run fill it in. -/
def createRun (rows : RunTable) (runID : String) (kind : RunKind) : RunTable :=
  rows.insert runID
    { kind, status := .running, finishedAt := none, bytesProcessed := 0, bytesUploaded := 0,
      dedupRatio := 0, error := "", progressPct := 0, currentStep := "Queued" }

def updateRunProgress (rows : RunTable) (runID : String) (snap : Snapshot) : RunTable :=
  rows.update runID fun row =>
    { row with
      bytesProcessed := snap.stats.bytesProcessed
      bytesUploaded := snap.stats.bytesUploaded
      progressPct := snap.pct
      currentStep := snap.currentStep }

/-- The first statement of `FinishRun`: the percentage a run that did not succeed keeps. -/
def progressPct (rows : RunTable) (runID : String) : ℚ :=
  match rows.lookup runID with
  | none => 0
  | some row => row.progressPct

/-- The second statement of `FinishRun`. -/
def finishRun (rows : RunTable) (runID : String) (v : Verdict) (pct : ℚ) (now : Time) : RunTable :=
  rows.update runID fun row =>
    { row with
      status := v.status
      finishedAt := some now
      bytesProcessed := v.processed
      bytesUploaded := v.uploaded
      dedupRatio := v.dedupRatio
      error := v.error
      progressPct := pct }

def setRunStep (rows : RunTable) (runID step : String) : RunTable :=
  rows.update runID fun row => { row with currentStep := step }

def markOrphanRunsFailed (rows : RunTable) (now : Time) : RunTable :=
  FinMap.mapVal (fun row =>
    if row.status = .running then
      { row with status := .failed, finishedAt := some now, error := "interrupted by server restart" }
    else row) rows

def deleteJobRun (rows : RunTable) (runID : String) : RunTable := rows.erase runID

theorem lookup_update (rows : RunTable) (runID r : String) (f : JobRun → JobRun) :
    (rows.update runID f).lookup r =
      if r = runID then (rows.lookup r).map f else rows.lookup r := by
  unfold update
  split
  · rename_i hnone
    split
    · rename_i heq
      rw [heq, hnone, Option.map_none]
    · rfl
  · rename_i row hrow
    rw [FinMap.lookup_insert_ite]
    split
    · rename_i heq
      rw [heq, hrow, Option.map_some]
    · rfl

@[grind =] theorem lookup_update_ne (rows : RunTable) {runID r : String} (h : r ≠ runID)
    (f : JobRun → JobRun) : (rows.update runID f).lookup r = rows.lookup r := by
  rw [lookup_update, if_neg h]

end RunTable

end ProxBack.Store
