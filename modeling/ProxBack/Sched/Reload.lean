import ProxBack.Lib.FinMap
import ProxBack.Lib.Requests
import ProxBack.Store.Timetable

/-! The table of the cron runner, rebuilt from the jobs after every change of them. The
requests that change jobs, and the reloads that follow, interleave. -/
namespace ProxBack.Sched.Reload
open Lib
open Engine (Fault)
open Store (Schedule)

structure JobRow where
  enabled : Bool
  schedule : Schedule
deriving DecidableEq, Repr

structure JobBody where
  enabled : Option Bool
  schedule : Option Schedule
deriving DecidableEq, Repr

def JobBody.apply (body : JobBody) (row : JobRow) : JobRow where
  enabled := body.enabled.getD row.enabled
  schedule := (body.schedule.getD row.schedule).normalized

def newJob (body : JobBody) : JobRow := body.apply ⟨true, .manual⟩

abbrev JobTable := FinMap String JobRow

inductive Change where
  | create (jobID : String) (row : JobRow)
  | update (jobID : String) (row : JobRow)
  | delete (jobID : String)
deriving DecidableEq, Repr

def Change.apply (c : Change) (jobs : JobTable) : Option JobTable :=
  match c with
  | .create jobID row => if jobID ∈ jobs then none else some (jobs.insert jobID row)
  | .update jobID row => if jobID ∈ jobs then some (jobs.insert jobID row) else none
  | .delete jobID => if jobID ∈ jobs then some (jobs.erase jobID) else none

structure Entry where
  id : Nat
  jobID : String
  spec : List Char
  schedule : Schedule
deriving DecidableEq, Repr

/-- `entries` is the manager's own map of the runner's entries. No operation reads `version`,
which counts the changes of the jobs, or `cleared`, the version whose reload cleared last. -/
structure Shared where
  jobs : JobTable
  cron : List Entry
  nextID : Nat
  entries : FinMap String Nat
  version : Nat
  cleared : Nat

/-- What a request does next. A `refused` one has changed nothing; one that `failed` may have
changed the jobs, and has not reloaded. -/
inductive Phase where
  | reading (jobID : String) (body : JobBody)
  | writing (c : Change)
  | listing
  | clearing (version : Nat) (jobs : List (String × JobRow))
  | adding (todo : List (String × JobRow))
  | recording (jobID : String) (id : Nat) (todo : List (String × JobRow))
  | returned
  | refused
  | failed
deriving DecidableEq, Repr

inductive Arrival where
  | start
  | createJob (jobID : String) (body : JobBody)
  | patchJob (jobID : String) (body : JobBody)
  | deleteJob (jobID : String)

inductive Access where
  | jobByID (fault : Option Fault)
  | write (res : Written)
  | listJobs (fault : Option Fault)
  | clear
  | add
  | record

def arrive : Arrival → Phase
  | .start => .listing
  | .createJob jobID body => .writing (.create jobID (newJob body))
  | .patchJob jobID body => .reading jobID body
  | .deleteJob jobID => .writing (.delete jobID)

namespace Shared

def change (s : Shared) (jobs : JobTable) : Shared := { s with jobs, version := s.version + 1 }

def listJobs (s : Shared) : List (String × JobRow) := s.jobs.entries.map fun e => (e.1, e.2)

def clear (s : Shared) (version : Nat) : Shared :=
  { s with
    cron := s.cron.filter fun e => e.id ∉ s.entries.entries.map fun r => r.2
    entries := ∅
    cleared := version }

def addFunc (s : Shared) (jobID : String) (schedule : Schedule) : Shared :=
  { s with
    cron := s.cron ++ [⟨s.nextID + 1, jobID, schedule.cron, schedule⟩]
    nextID := s.nextID + 1 }

def record (s : Shared) (jobID : String) (id : Nat) : Shared :=
  { s with entries := s.entries.insert jobID id }

end Shared

section
variable (accepts : List Char → Bool)

/-- The next turn of the loop of `ReloadSchedules`. -/
def addNext (s : Shared) : List (String × JobRow) → Shared × Phase
  | [] => (s, .returned)
  | (jobID, row) :: todo =>
    if ¬ row.enabled ∨ row.schedule.cron = [] then (s, .adding todo)
    else if accepts row.schedule.cron then
      (s.addFunc jobID row.schedule, .recording jobID (s.nextID + 1) todo)
    else (s, .adding todo)

def advance : Access → Shared → Phase → Option (Shared × Phase)
  | .jobByID fault, s, .reading jobID body =>
    match fault, s.jobs.lookup jobID with
    | none, some row => some (s, .writing (.update jobID (body.apply row)))
    | _, _ => some (s, .refused)
  | .write res, s, .writing c =>
    match res, c.apply s.jobs with
    | .done, some jobs => some (s.change jobs, .listing)
    | .lost, some jobs => some (s.change jobs, .failed)
    | _, _ => some (s, .refused)
  | .listJobs fault, s, .listing =>
    match fault with
    | none => some (s, .clearing s.version s.listJobs)
    | some _ => some (s, .failed)
  | .clear, s, .clearing version jobs => some (s.clear version, .adding jobs)
  | .add, s, .adding todo => some (addNext accepts s todo)
  | .record, s, .recording jobID id todo => some (s.record jobID id, .adding todo)
  | _, _, _ => none

def service : Service Shared Phase Arrival Access := ⟨arrive, advance accepts⟩

/-- A server that comes up with these jobs: its runner is empty until it has reloaded. -/
def initial (jobs : JobTable) : Hall Shared Phase := ⟨⟨jobs, [], 0, ∅, 1, 0⟩, [arrive .start]⟩

end

end ProxBack.Sched.Reload
